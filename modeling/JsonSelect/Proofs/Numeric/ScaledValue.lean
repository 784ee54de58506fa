import Mathlib.Algebra.Order.Ring.Pow
import Mathlib.Algebra.Order.Round
import Mathlib.Data.Rat.Floor
import JsonSelect.Proofs.Numeric.ScaledRange

/-!
# The values of decimals

The conversion of a number to a decimal loses at two places, and at neither of them can it turn
the order of two numbers around.

Working off a negative power of two may cut off bits of the coefficient.  This happens only to
coefficients of more than 93 bits, so that of the value at most the part `1074 / 2 ^ 93` is lost
(`clearNegative_bounds`).  That is less than what lies between two floating-point numbers, and whole
numbers lose nothing (`FiniteFloat.cleared_eq_of_magnitude_eq`).

How many places are rounded away afterwards depends on the number.  They are given up one by one,
though, and each of these steps is monotone as a function on all numbers (`monotone_dropPlace`),
also where it stops: the coefficients below `2 ^ 52`, which are kept, are below those that are
rounded.  A number that has no such place yet is not changed by the step.  So all numbers can be
treated as if they had the same number of places at the start, and the rest of the conversion is
monotone (`monotone_shorten`, `ScaledDecimal.magnitude_of_ofFiniteFloat`).
-/

namespace JsonSelect

namespace ScaledDecimal

/-- The exact value of a coefficient with a power of ten. -/
def Interim.value (p : Interim) : ℚ :=
  p.coefficient * 10 ^ p.exponent

/-- The absolute value. -/
def magnitude (d : ScaledDecimal) : ℚ :=
  d.coefficient / 10 ^ d.places

/-! ### Working off the power of two -/

theorem Interim.value_nonneg (p : Interim) : 0 ≤ p.value := by
  unfold value
  positivity

section

variable {m : Nat} {e : Int}

/-- Five times the significand is five times the value. -/
theorem value_five_mul : (⟨5 * m, e⟩ : Interim).value = (⟨m, e⟩ : Interim).value * 5 := by
  simp only [Interim.value]
  push_cast
  ring

/-- Half of a coefficient is a tenth of five times the coefficient. -/
theorem value_half : (⟨m / 2, e + 1⟩ : Interim).value = 2 * (m / 2 : Nat) * 10 ^ e * 5 := by
  rw [Interim.value, zpow_add_one₀ (by norm_num : (10 : ℚ) ≠ 0)]
  ring

/-- Halving an even significand at the next exponent gives five times the value. -/
theorem value_half_of_even (h : m % 2 = 0) :
    (⟨m / 2, e + 1⟩ : Interim).value = (⟨m, e⟩ : Interim).value * 5 := by
  have hdouble : (2 : ℚ) * (m / 2 : Nat) = m := by
    exact_mod_cast Nat.mul_div_cancel' (Nat.dvd_of_mod_eq_zero h)
  rw [value_half, hdouble, Interim.value]

/-- The last bit is a small part of a large coefficient. -/
theorem value_half_of_odd (hodd : ¬ m % 2 = 0) (hlarge : 2 ^ 93 ≤ m) :
    (⟨m, e⟩ : Interim).value * 5 * (1 - 1 / 2 ^ 93) ≤ (⟨m / 2, e + 1⟩ : Interim).value ∧
      (⟨m / 2, e + 1⟩ : Interim).value ≤ (⟨m, e⟩ : Interim).value * 5 := by
  have hsplit : 2 * (m / 2) + 1 = m := by omega
  have hlast : (2 : ℚ) * (m / 2 : Nat) = m - 1 := by
    rw [eq_sub_iff_add_eq]
    exact_mod_cast hsplit
  have hlarge' : (2 : ℚ) ^ 93 ≤ m := by exact_mod_cast hlarge
  have hpart : (m : ℚ) * (1 - 1 / 2 ^ 93) ≤ m - 1 := by linarith
  rw [value_half, hlast, Interim.value]
  constructor
  · calc (m : ℚ) * 10 ^ e * 5 * (1 - 1 / 2 ^ 93)
      _ = m * (1 - 1 / 2 ^ 93) * 10 ^ e * 5 := by ring
      _ ≤ (m - 1) * 10 ^ e * 5 := by gcongr
  · gcongr
    exact sub_le_self _ zero_le_one

end

/-- Each step multiplies by five, up to a small loss. -/
theorem exists_clearNegative_eq (steps : Nat) (p : Interim) :
    ∃ next : Interim, clearNegative (steps + 1) p = clearNegative steps next ∧
      p.value * 5 * (1 - 1 / 2 ^ 93) ≤ next.value ∧ next.value ≤ p.value * 5 := by
  have hloss : p.value * 5 * (1 - 1 / 2 ^ 93) ≤ p.value * 5 := by
    have hnonneg := p.value_nonneg
    linarith
  obtain ⟨m, e⟩ := p
  rw [clearNegative]
  split
  · next heven =>
    have hexact := value_half_of_even (e := e) heven
    exact ⟨_, rfl, hloss.trans_eq hexact.symm, hexact.le⟩
  · next hodd =>
    split
    · exact ⟨_, rfl, hloss.trans_eq value_five_mul.symm, value_five_mul.le⟩
    · next hfull =>
      have hlarge : 2 ^ 93 ≤ m := by
        rw [Nat.one_shiftLeft] at hfull
        omega
      exact ⟨_, rfl, value_half_of_odd hodd hlarge⟩

/-- Working off a negative power of two loses a small part at most. -/
theorem clearNegative_bounds (steps : Nat) (p : Interim) :
    p.value * 5 ^ steps * (1 - 1 / 2 ^ 93) ^ steps ≤ (clearNegative steps p).value ∧
      (clearNegative steps p).value ≤ p.value * 5 ^ steps := by
  induction steps generalizing p with
  | zero => simp [clearNegative]
  | succ steps ih =>
    obtain ⟨next, hnext, hlow, hhigh⟩ := exists_clearNegative_eq steps p
    obtain ⟨ihlow, ihhigh⟩ := ih next
    rw [hnext]
    constructor
    · calc p.value * 5 ^ (steps + 1) * (1 - 1 / 2 ^ 93) ^ (steps + 1)
        _ = p.value * 5 * (1 - 1 / 2 ^ 93) * (5 ^ steps * (1 - 1 / 2 ^ 93) ^ steps) := by ring
        _ ≤ next.value * (5 ^ steps * (1 - 1 / 2 ^ 93) ^ steps) := by gcongr
        _ = next.value * 5 ^ steps * (1 - 1 / 2 ^ 93) ^ steps := by ring
        _ ≤ (clearNegative steps next).value := ihlow
    · calc (clearNegative steps next).value
        _ ≤ next.value * 5 ^ steps := ihhigh
        _ ≤ p.value * 5 * 5 ^ steps := by gcongr
        _ = p.value * 5 ^ (steps + 1) := by ring

/-- As long as the coefficient is even nothing is lost. -/
theorem clearNegative_mul_two_pow (steps m : Nat) (e : Int) :
    clearNegative steps ⟨m * 2 ^ steps, e⟩ = ⟨m, e + steps⟩ := by
  induction steps generalizing e with
  | zero => simp [clearNegative]
  | succ steps ih =>
    have hdouble : m * 2 ^ (steps + 1) = m * 2 ^ steps * 2 := by rw [Nat.pow_succ, Nat.mul_assoc]
    rw [clearNegative, hdouble, if_pos (Nat.mul_mod_left _ 2), Nat.mul_div_cancel _ two_pos, ih]
    congr 1
    push_cast
    ring

/-- No step makes the power of ten smaller. -/
theorem le_exponent_clearNegative (steps : Nat) (p : Interim) :
    p.exponent ≤ (clearNegative steps p).exponent := by
  induction steps generalizing p with
  | zero => exact Int.le_refl _
  | succ steps ih =>
    obtain ⟨m, e⟩ := p
    have hnext : e ≤ (clearNegative steps ⟨m / 2, e + 1⟩).exponent :=
      (Int.le_of_lt (Int.lt_succ e)).trans (ih ⟨m / 2, e + 1⟩)
    rw [clearNegative]
    split
    · exact hnext
    · split
      · exact ih ⟨5 * m, e⟩
      · exact hnext

end ScaledDecimal

/-! ### Rounding places away -/

/-- The nearest number with so many places, a half going upwards. -/
def roundPlaces (places : Nat) (v : ℚ) : ℚ :=
  round (v * 10 ^ places) / 10 ^ places

/-- One of `places + 1` places is given up: beyond the 28th always, and the others where more than
52 bits are needed.  What is below the last place kept becomes zero beyond the 28th. -/
def dropPlace (places : Nat) (v : ℚ) : ℚ :=
  if 28 ≤ places then if v * 10 ^ places < 1 then 0 else roundPlaces places v
  else if v * 10 ^ (places + 1) < 2 ^ 52 then v else roundPlaces places v

/-- The places of a number are given up one by one. -/
def shorten : (places : Nat) → ℚ → ℚ
  | 0, v => v
  | places + 1, v => shorten places (dropPlace places v)

theorem round_le_round {v w : ℚ} (h : v ≤ w) : round v ≤ round w := by
  rw [round_eq, round_eq]
  exact Int.floor_mono (by linarith)

/-- Rounding to decimal places is monotone. -/
theorem monotone_roundPlaces (places : Nat) : Monotone (roundPlaces places) := by
  intro v w h
  have hround : round (v * 10 ^ places) ≤ round (w * 10 ^ places) := round_le_round (by gcongr)
  unfold roundPlaces
  gcongr

/-- A value with that many decimal places is not rounded. -/
theorem roundPlaces_of_eq {places n : Nat} {v : ℚ} (h : v * 10 ^ places = n) :
    roundPlaces places v = v := by
  rw [roundPlaces, h, round_natCast, Int.cast_natCast, ← h, mul_div_cancel_right₀]
  positivity

/-- The least coefficient of more than 52 bits is rounded upwards. -/
theorem le_roundPlaces_threshold {places : Nat} {v : ℚ} (h : 2 ^ 52 ≤ v * 10 ^ (places + 1)) :
    (2 : ℚ) ^ 52 / 10 ^ (places + 1) ≤ roundPlaces places v := by
  have htenth : (2 : ℚ) ^ 52 / 10 ≤ v * 10 ^ places := by
    rw [pow_succ (10 : ℚ), ← mul_assoc] at h
    linarith
  have hround : round ((2 : ℚ) ^ 52 / 10) = 450359962737050 := by
    rw [round_eq_iff]
    norm_num
  have hmono : (450359962737050 : ℤ) ≤ round (v * 10 ^ places) :=
    hround.symm.le.trans (round_le_round htenth)
  have hcast : (450359962737050 : ℚ) ≤ round (v * 10 ^ places) := by exact_mod_cast hmono
  rw [roundPlaces, pow_succ (10 : ℚ), div_mul_eq_div_div_swap]
  gcongr
  linarith

/-- Two monotone functions, one for the numbers below a bound and one for the others, give a
monotone function if the second one is not below the first. -/
theorem monotone_ite_lt {f g : ℚ → ℚ} {scale bound : ℚ} (hscale : 0 ≤ scale) (hf : Monotone f)
    (hg : Monotone g) (hbound : ∀ v w, v * scale < bound → bound ≤ w * scale → f v ≤ g w) :
    Monotone fun v => if v * scale < bound then f v else g v := by
  intro v w h
  have hscaled : v * scale ≤ w * scale := mul_le_mul_of_nonneg_right h hscale
  dsimp only
  split
  · next hv =>
    split
    · exact hf h
    · next hw => exact hbound v w hv (not_lt.mp hw)
  · next hv =>
    rw [if_neg fun hw => hv (hscaled.trans_lt hw)]
    exact hg h

/-- Giving up a place keeps the order. -/
theorem monotone_dropPlace (places : Nat) : Monotone (dropPlace places) := by
  have hround := monotone_roundPlaces places
  unfold dropPlace
  split
  · refine monotone_ite_lt (by positivity) monotone_const hround fun v w _ hw => ?_
    have hzero : (0 : ℤ) ≤ round (w * 10 ^ places) :=
      round_zero.symm.le.trans (round_le_round (zero_le_one.trans hw))
    have hcast : (0 : ℚ) ≤ round (w * 10 ^ places) := by exact_mod_cast hzero
    unfold roundPlaces
    positivity
  · refine monotone_ite_lt (by positivity) monotone_id hround fun v w hv hw => ?_
    calc v
      _ ≤ 2 ^ 52 / 10 ^ (places + 1) := by
        rw [le_div_iff₀ (by positivity)]
        exact hv.le
      _ ≤ roundPlaces places w := le_roundPlaces_threshold hw

/-- Shortening is monotone. -/
theorem monotone_shorten (places : Nat) : Monotone (shorten places) := by
  induction places with
  | zero => exact monotone_id
  | succ places ih => exact ih.comp (monotone_dropPlace places)

/-- Places that a number does not need can be given up. -/
theorem dropPlace_of_eq {places n : Nat} {v : ℚ} (h : v * 10 ^ places = n) :
    dropPlace places v = v := by
  have hround : roundPlaces places v = v := roundPlaces_of_eq h
  unfold dropPlace
  split
  · split
    · next hsmall =>
      rw [h, Nat.cast_lt_one] at hsmall
      rw [hsmall, Nat.cast_zero, mul_eq_zero] at h
      exact (h.resolve_right (by positivity)).symm
    · exact hround
  · split
    · rfl
    · exact hround

/-- A value with few decimal places is not shortened further by more of them. -/
theorem shorten_of_eq {places n : Nat} {v : ℚ} (h : v * 10 ^ places = n) {more : Nat}
    (hle : places ≤ more) : shorten more v = shorten places v := by
  induction more, hle using Nat.le_induction with
  | base => rfl
  | succ more hle ih =>
    have hwhole : v * 10 ^ more = (n * 10 ^ (more - places) : Nat) := by
      rw [← Nat.sub_add_cancel hle, Nat.add_sub_cancel, pow_add]
      push_cast
      rw [← h]
      ring
    rw [shorten, dropPlace_of_eq hwhole, ih]

/-- Whole numbers are kept. -/
@[simp] theorem shorten_natCast (places n : Nat) : shorten places n = n := by
  have hwhole : (n : ℚ) * 10 ^ 0 = n := by rw [pow_zero, mul_one]
  rw [shorten_of_eq hwhole (Nat.zero_le places), shorten]

theorem shorten_nonneg (places : Nat) {v : ℚ} (h : 0 ≤ v) : 0 ≤ shorten places v := by
  have hzero : shorten places (0 : Nat) = (0 : Nat) := shorten_natCast places 0
  rw [Nat.cast_zero] at hzero
  rw [← hzero]
  exact monotone_shorten places h

/-- What has at most 52 bits is kept. -/
theorem shorten_of_lt {places : Nat} {v : ℚ} (hplaces : places ≤ 28) (hv : 0 ≤ v)
    (h : v * 10 ^ places < 2 ^ 52) : shorten places v = v := by
  induction places with
  | zero => rfl
  | succ places ih =>
    have hkept : dropPlace places v = v := by
      rw [dropPlace, if_neg (by omega), if_pos h]
    have hfewer : v * 10 ^ places ≤ v * 10 ^ (places + 1) := by
      gcongr
      · norm_num
      · exact Nat.le_succ places
    rw [shorten, hkept, ih (by omega) (hfewer.trans_lt h)]

/-- The last place of a coefficient rounded away. -/
theorem roundPlaces_div (places m : Nat) :
    roundPlaces places (m / 10 ^ (places + 1)) =
      (if 5 ≤ m % 10 then m / 10 + 1 else m / 10 : Nat) / 10 ^ places := by
  have htenth : (m : ℚ) / 10 ^ (places + 1) * 10 ^ places = m / 10 := by
    rw [pow_succ]
    field_simp
  have hsplit : (m : ℚ) = 10 * (m / 10 : Nat) + (m % 10 : Nat) := by
    exact_mod_cast (Nat.div_add_mod m 10).symm
  have hround : round ((m : ℚ) / 10) = (if 5 ≤ m % 10 then m / 10 + 1 else m / 10 : Nat) := by
    rw [round_eq_iff, Int.cast_natCast]
    split
    · next hup =>
      have hup' : (5 : ℚ) ≤ (m % 10 : Nat) := by exact_mod_cast hup
      have hdigit : ((m % 10 : Nat) : ℚ) < 10 := by exact_mod_cast Nat.mod_lt m (by decide)
      rw [Nat.cast_add_one]
      constructor <;> linarith
    · next hdown =>
      have hdown' : ((m % 10 : Nat) : ℚ) < 5 := by exact_mod_cast Nat.not_le.mp hdown
      have hdigit : (0 : ℚ) ≤ (m % 10 : Nat) := Nat.cast_nonneg _
      constructor <;> linarith
  rw [roundPlaces, htenth, hround, Int.cast_natCast]

/-! ### The end of the conversion -/

namespace ScaledDecimal

/-- Rounding for as long as there are more than 52 bits. -/
theorem limitBits_eq {places : Nat} (hplaces : places ≤ 28) (m : Nat) :
    ((limitBits places m).1 : ℚ) / 10 ^ (limitBits places m).2 =
      shorten places (m / 10 ^ places) := by
  induction places generalizing m with
  | zero => rfl
  | succ places ih =>
    have hscaled : (m : ℚ) / 10 ^ (places + 1) * 10 ^ (places + 1) = m :=
      div_mul_cancel₀ _ (by positivity)
    have hsmall : m < 1 <<< 52 ↔ (m : ℚ) < 2 ^ 52 := by
      rw [Nat.one_shiftLeft]
      exact_mod_cast Iff.rfl
    rw [limitBits]
    split
    · next hstop =>
      exact (shorten_of_lt hplaces (by positivity) (by rw [hscaled]; exact hsmall.mp hstop)).symm
    · next hgo =>
      have hdrop : dropPlace places ((m : ℚ) / 10 ^ (places + 1)) =
          (if 5 ≤ m % 10 then m / 10 + 1 else m / 10 : Nat) / 10 ^ places := by
        rw [dropPlace, if_neg (by omega), hscaled, if_neg (mt hsmall.mpr hgo), roundPlaces_div]
      rw [shorten, hdrop]
      split <;> exact ih (by omega) _

/-- Rounding to 28 places. -/
theorem exists_limitPlaces_eq (places m : Nat) :
    ∃ coefficient kept : Nat, kept ≤ 28 ∧
      limitPlaces (-28 - -(places : Int)).toNat ⟨m, -(places : Int)⟩ =
        ⟨coefficient, -(kept : Int)⟩ ∧
      shorten places (m / 10 ^ places) = shorten kept (coefficient / 10 ^ kept) := by
  induction places generalizing m with
  | zero => exact ⟨m, 0, Nat.zero_le 28, rfl, rfl⟩
  | succ places ih =>
    rcases Nat.lt_or_ge places 28 with hfew | hmany
    · have hnone : (-28 - -((places + 1 : Nat) : Int)).toNat = 0 := Int.toNat_of_nonpos (by omega)
      rw [hnone]
      exact ⟨m, places + 1, hfew, rfl, rfl⟩
    · have hsteps : (-28 - -((places + 1 : Nat) : Int)).toNat =
          (-28 - -(places : Int)).toNat + 1 := by omega
      have hexponent : -((places + 1 : Nat) : Int) + 1 = -(places : Int) := by omega
      have htenth : (m : ℚ) / 10 ^ (places + 1) * 10 ^ places = m / 10 := by
        rw [pow_succ]
        field_simp
      have hsmall : m / 10 = 0 ↔ (m : ℚ) / 10 < 1 := by
        rw [Nat.div_eq_zero_iff_lt (by decide), div_lt_one (by norm_num)]
        exact_mod_cast Iff.rfl
      rw [hsteps, limitPlaces, hexponent, shorten, dropPlace, if_pos hmany, htenth, roundPlaces_div]
      split
      · next hzero =>
        refine ⟨0, 0, Nat.zero_le 28, rfl, ?_⟩
        rw [if_pos (hsmall.mp hzero), ← Nat.cast_zero, shorten_natCast]
        simp [shorten]
      · next hrest =>
        rw [if_neg (mt hsmall.mpr hrest)]
        split <;> exact ih _

/-- The conversion of a coefficient with a number of places. -/
theorem exists_finish_eq (negative : Bool) (m places : Nat) :
    ∃ d : ScaledDecimal, finish negative ⟨m, -(places : Int)⟩ = some d ∧ d.negative = negative ∧
      d.magnitude = shorten places (m / 10 ^ places) := by
  have hexpand : expand (-(places : Int)).toNat m = some m := by
    rw [Int.toNat_of_nonpos (by omega)]
    rfl
  have hmin : min (-(places : Int)) 0 = -(places : Int) := by omega
  obtain ⟨coefficient, kept, hkept, hlimit, hshorten⟩ := exists_limitPlaces_eq places m
  have hplaces : (- -(kept : Int)).toNat = kept := by rw [Int.neg_neg, Int.toNat_natCast]
  refine ⟨⟨negative, (limitBits kept coefficient).1, (limitBits kept coefficient).2⟩, ?_, rfl, ?_⟩
  · simp only [finish, hexpand, hmin, Option.bind_eq_bind, Option.bind_some, hlimit, hplaces]
    rfl
  · rw [hshorten, ← limitBits_eq hkept]
    rfl

end ScaledDecimal

/-! ### Finite numbers -/

namespace FiniteFloat

/-- The magnitude that is left when the power of two is worked off. -/
def cleared (x : FiniteFloat) : ℚ :=
  if x.exponent < 0 then
    (ScaledDecimal.clearNegative (-x.exponent).toNat ⟨x.significand, x.exponent⟩).value
  else x.magnitude

/-- What is cleared depends on the code of a float only. -/
theorem cleared_eq_of_code_eq {x y : FiniteFloat} (h : x.code = y.code) :
    x.cleared = y.cleared := by
  cases x
  cases y
  subst h
  rfl

/-- No exponent is below that of the least magnitude. -/
theorem neg_exponent_le (x : FiniteFloat) : -x.exponent ≤ 1074 := by
  unfold exponent
  omega

/-- The magnitude with a negative power of two. -/
theorem exists_steps {x : FiniteFloat} (h : x.exponent < 0) :
    ∃ steps : Nat, steps ≤ 1074 ∧ x.exponent = -(steps : Int) := by
  have hlow := x.neg_exponent_le
  exact ⟨(-x.exponent).toNat, by omega, by omega⟩

/-- Negative powers of ten become powers of two when they are multiplied by powers of five. -/
theorem ten_zpow_mul_five_pow (steps : Nat) :
    (10 : ℚ) ^ (-(steps : Int)) * 5 ^ steps = 2 ^ (-(steps : Int)) := by
  rw [zpow_neg, zpow_neg, zpow_natCast, zpow_natCast, show (10 : ℚ) = 2 * 5 by norm_num, mul_pow]
  field_simp

/-- Less than the distance to the next number is lost. -/
theorem cleared_bounds (x : FiniteFloat) :
    (1 - 1 / 2 ^ 53) * x.magnitude ≤ x.cleared ∧ x.cleared ≤ x.magnitude := by
  have hnonneg := x.magnitude_nonneg
  unfold cleared
  split
  · next hneg =>
    obtain ⟨steps, hsteps, hexponent⟩ := exists_steps hneg
    have hstart : (⟨x.significand, x.exponent⟩ : ScaledDecimal.Interim).value * 5 ^ steps =
        x.magnitude := by
      rw [ScaledDecimal.Interim.value, magnitude, hexponent, mul_assoc, ten_zpow_mul_five_pow]
    obtain ⟨hlow, hhigh⟩ := ScaledDecimal.clearNegative_bounds steps ⟨x.significand, x.exponent⟩
    rw [hstart] at hlow hhigh
    have hloss : (1 : ℚ) - 1 / 2 ^ 53 ≤ (1 - 1 / 2 ^ 93) ^ steps := by
      have hbernoulli := one_add_mul_le_pow (a := (-(1 / 2 ^ 93) : ℚ)) (by norm_num) steps
      have hsteps' : (steps : ℚ) ≤ 1074 := by exact_mod_cast hsteps
      rw [← sub_eq_add_neg] at hbernoulli
      refine le_trans ?_ hbernoulli
      linarith
    rw [hexponent, Int.neg_neg, Int.toNat_natCast, ← hexponent]
    refine ⟨le_trans ?_ hlow, hhigh⟩
    rw [mul_comm]
    gcongr
  · exact ⟨by linarith, le_rfl⟩

theorem cleared_nonneg (x : FiniteFloat) : 0 ≤ x.cleared :=
  (mul_nonneg (by norm_num) x.magnitude_nonneg).trans x.cleared_bounds.1

/-- Nothing is lost of a whole number. -/
theorem cleared_eq_of_magnitude_eq {x : FiniteFloat} {n : Nat} (h : x.magnitude = n) :
    x.cleared = n := by
  unfold cleared
  split
  · next hneg =>
    obtain ⟨steps, -, hexponent⟩ := exists_steps hneg
    have hsignificand : x.significand = n * 2 ^ steps := by
      rw [magnitude, hexponent, zpow_neg, zpow_natCast, ← div_eq_mul_inv,
        div_eq_iff (by positivity)] at h
      exact_mod_cast h
    rw [hexponent, Int.neg_neg, Int.toNat_natCast, hsignificand,
      ScaledDecimal.clearNegative_mul_two_pow, neg_add_cancel, ScaledDecimal.Interim.value,
      zpow_zero, mul_one]
  · exact h

end FiniteFloat

namespace ScaledDecimal

variable {x : FiniteFloat} {d : ScaledDecimal}

/-- A float with a negative exponent becomes its cleared value, shortened. -/
theorem magnitude_of_finish_clearNegative (hneg : x.exponent < 0)
    (h : finish x.negative (clearNegative (-x.exponent).toNat ⟨x.significand, x.exponent⟩) =
      some d) :
    d.magnitude = shorten 1074 x.cleared ∧ d.negative = x.negative := by
  have hbound := x.neg_exponent_le
  have hlow := le_exponent_clearNegative (-x.exponent).toNat ⟨x.significand, x.exponent⟩
  have hhigh := exponent_clearNegative_le (-x.exponent).toNat ⟨x.significand, x.exponent⟩
  have hcleared : x.cleared = (clearNegative (-x.exponent).toNat
      ⟨x.significand, x.exponent⟩).value := if_pos hneg
  generalize clearNegative (-x.exponent).toNat ⟨x.significand, x.exponent⟩ = p
    at h hlow hhigh hcleared
  obtain ⟨m, e⟩ := p
  simp only at hlow hhigh
  obtain ⟨places, rfl⟩ : ∃ places : Nat, e = -(places : Int) := ⟨(-e).toNat, by omega⟩
  obtain ⟨d', hd', hnegative, hmagnitude⟩ := exists_finish_eq x.negative m places
  obtain rfl : d' = d := Option.some.inj (hd'.symm.trans h)
  have hvalue : x.cleared = m / 10 ^ places := by
    rw [hcleared, Interim.value, zpow_neg, zpow_natCast, div_eq_mul_inv]
  have hwhole : x.cleared * 10 ^ places = m := by
    rw [hvalue]
    exact div_mul_cancel₀ _ (by positivity)
  refine ⟨?_, hnegative⟩
  rw [hmagnitude, ← hvalue]
  exact (shorten_of_eq hwhole (by omega)).symm

/-- So does a float with another exponent. -/
theorem magnitude_of_clearPositive_bind_finish (hnonneg : 0 ≤ x.exponent)
    (h : (clearPositive x.exponent.toNat ⟨x.significand, x.exponent⟩).bind (finish x.negative) =
      some d) :
    d.magnitude = shorten 1074 x.cleared ∧ d.negative = x.negative := by
  obtain ⟨hlow, hhigh⟩ := significand_bounds hnonneg
  have hstart : (⟨x.significand, x.exponent⟩ : Interim) =
      ⟨x.significand, (x.exponent.toNat : Int)⟩ := by
    rw [Int.toNat_of_nonneg hnonneg]
  have hwhole : x.magnitude = (x.significand * 2 ^ x.exponent.toNat : Nat) := by
    rw [FiniteFloat.magnitude, ← Int.toNat_of_nonneg hnonneg, zpow_natCast, Int.toNat_natCast]
    push_cast
    rfl
  rw [hstart, clearPositive_eq 43 (by decide) hlow hhigh] at h
  split at h
  · obtain ⟨d', hd', hnegative, hmagnitude⟩ :=
      exists_finish_eq x.negative (x.significand * 2 ^ x.exponent.toNat) 0
    obtain rfl : d' = d := Option.some.inj (hd'.symm.trans h)
    refine ⟨?_, hnegative⟩
    rw [hmagnitude, FiniteFloat.cleared_eq_of_magnitude_eq hwhole, shorten_natCast, pow_zero,
      div_one, shorten_natCast]
  · cases h

/-- The decimal of a number is what is left of it after both kinds of loss.  Zero has no sign. -/
theorem magnitude_of_ofFiniteFloat (h : ofFiniteFloat x = some d) :
    d.magnitude = shorten 1074 x.cleared ∧ (d.negative = x.negative ∨ x.code = 0) := by
  unfold ofFiniteFloat at h
  split at h
  · next hzero =>
    obtain rfl := Option.some.inj h
    have hmagnitude : x.magnitude = (0 : Nat) := by
      rw [FiniteFloat.magnitude_eq, hzero, magnitudeOfCode_zero, Nat.cast_zero]
    rw [FiniteFloat.cleared_eq_of_magnitude_eq hmagnitude, shorten_natCast]
    exact ⟨by simp [magnitude], Or.inr hzero⟩
  · dsimp only at h
    split at h
    · next hneg => exact (magnitude_of_finish_clearNegative hneg h).imp_right Or.inl
    · next hnonneg =>
      exact (magnitude_of_clearPositive_bind_finish (Int.not_lt.mp hnonneg) h).imp_right Or.inl

end ScaledDecimal

end JsonSelect
