import JsonSelect.Proofs.Literal.Order
import JsonSelect.Proofs.Numeric.ScaledValue

/-!
# The order of numbers is that of their values

Decimals are not exact, and the floating-point number next to a whole number is not either.  Still
no comparison of two numbers contradicts the order of their exact values: if the first number is
smaller, then it is found to be smaller or equal, never larger (`CommonNumber.rank_le_rank`).  The
decimal of the larger number is not the smaller one, since working off powers of two loses less
than what lies between two numbers, and rounding places away is monotone.  Where one of two numbers
has no decimal, the other one may be rounded to floating point, and rounding passes no number.

The place of a whole number among the whole numbers of conditions is exact
(`CommonNumber.compare_rank_integer`).  Their decimals have their values, and what has no decimal
has another place than all of these.  Only the whole numbers of documents beyond the signed range
are rounded before they are compared.  They are above all whole numbers of conditions, and stay
above them (`Number.ComparedAs`).
-/

namespace JsonSelect

/-- The exact value of a number of a document. -/
def Number.value : Number → ℚ
  | integer value _ => value
  | float value => value.value

/-! ### Decimals -/

/-- The value of a decimal is its magnitude with its sign. -/
theorem ScaledDecimal.value_eq_signed (d : ScaledDecimal) :
    d.value = if d.negative then -d.magnitude else d.magnitude := by
  rw [value, signedCoefficient, magnitude]
  split
  · push_cast
    ring
  · push_cast
    rfl

namespace CommonNumber

/-- Whether the number is written with a minus sign. -/
def negative : CommonNumber → Bool
  | integer value => decide (value.toInt < 0)
  | float value => value.negative

/-- The exact magnitude. -/
def magnitude : CommonNumber → ℚ
  | integer value => value.toInt.natAbs
  | float value => value.magnitude

/-- The magnitude that is left when powers of two are worked off. -/
def cleared : CommonNumber → ℚ
  | integer value => value.toInt.natAbs
  | float value => value.cleared

/-- The value of a number is its magnitude with its sign. -/
theorem value_number (b : CommonNumber) :
    b.number.value = if b.negative then -b.magnitude else b.magnitude := by
  cases b with
  | integer value => exact intCast_eq_signed value.toInt
  | float value => rfl

theorem magnitude_nonneg (b : CommonNumber) : 0 ≤ b.magnitude := by
  cases b with
  | integer value => exact Nat.cast_nonneg _
  | float value => exact value.magnitude_nonneg

/-- The magnitude of a number is its absolute value. -/
theorem abs_value_number (b : CommonNumber) : |b.number.value| = b.magnitude := by
  rw [value_number]
  split
  · rw [abs_neg, abs_of_nonneg b.magnitude_nonneg]
  · exact abs_of_nonneg b.magnitude_nonneg

/-- Clearing the binary exponent does not make a magnitude greater. -/
theorem cleared_le_magnitude (b : CommonNumber) : b.cleared ≤ b.magnitude := by
  cases b with
  | integer value => exact le_rfl
  | float value => exact value.cleared_bounds.2

theorem cleared_nonneg (b : CommonNumber) : 0 ≤ b.cleared := by
  cases b with
  | integer value => exact Nat.cast_nonneg _
  | float value => exact value.cleared_nonneg

/-- A whole magnitude is cleared as it is. -/
theorem cleared_eq_of_magnitude_eq {b : CommonNumber} {n : Nat} (h : b.magnitude = n) :
    b.cleared = n := by
  cases b with
  | integer value => exact h
  | float value => exact FiniteFloat.cleared_eq_of_magnitude_eq h

/-- A number below a floating-point number with a fraction stays behind it by a certain part. -/
theorem magnitude_le_of_lt {a : CommonNumber} {y : FiniteFloat} (hexponent : y.exponent < 0)
    (h : a.magnitude < y.magnitude) : a.magnitude ≤ (1 - 1 / 2 ^ 53) * y.magnitude := by
  cases a with
  | float x => exact magnitudeOfCode_le_of_lt (strictMono_magnitudeOfCode.lt_iff_lt.mp h)
  | integer value =>
    obtain ⟨steps, -, hsteps⟩ := FiniteFloat.exists_steps hexponent
    have hspacing : (0 : ℚ) < 2 ^ y.exponent := by positivity
    have hscaled : (value.toInt.natAbs : ℚ) = value.toInt.natAbs * 2 ^ steps * 2 ^ y.exponent := by
      rw [hsteps, zpow_neg, zpow_natCast, mul_assoc, mul_inv_cancel₀ (by positivity), mul_one]
    have hfactor : (y.significand : ℚ) ≤ 2 ^ 53 := by exact_mod_cast y.significand_lt.le
    rw [magnitude, hscaled, FiniteFloat.magnitude, mul_lt_mul_iff_of_pos_right hspacing] at h
    have hnext : (value.toInt.natAbs : ℚ) * 2 ^ steps + 1 ≤ y.significand := by
      exact_mod_cast Nat.succ_le_of_lt (by exact_mod_cast h)
    rw [magnitude, hscaled]
    exact mul_le_of_add_one_le hspacing.le hnext hfactor

/-- Working off powers of two keeps the order. -/
theorem cleared_le_cleared {a b : CommonNumber} (h : a.magnitude ≤ b.magnitude) :
    a.cleared ≤ b.cleared := by
  cases b with
  | integer value => exact a.cleared_le_magnitude.trans h
  | float y =>
    rcases h.lt_or_eq with hlt | heq
    · by_cases hexponent : y.exponent < 0
      · calc a.cleared
          _ ≤ a.magnitude := a.cleared_le_magnitude
          _ ≤ (1 - 1 / 2 ^ 53) * y.magnitude := magnitude_le_of_lt hexponent hlt
          _ ≤ y.cleared := y.cleared_bounds.1
      · have hexact : y.cleared = y.magnitude := if_neg hexponent
        exact a.cleared_le_magnitude.trans (h.trans hexact.ge)
    · cases a with
      | integer value =>
        exact (FiniteFloat.cleared_eq_of_magnitude_eq heq.symm).ge
      | float x =>
        have hcode : x.code = y.code := strictMono_magnitudeOfCode.injective heq
        exact (FiniteFloat.cleared_eq_of_code_eq hcode).le

/-- The value of the decimal of a number. -/
theorem value_of_scaled? {b : CommonNumber} {d : ScaledDecimal} (h : b.quantity.scaled? = some d) :
    d.value = if b.negative then -shorten 1074 b.cleared else shorten 1074 b.cleared := by
  cases b with
  | integer value =>
    obtain rfl := Option.some.inj h
    rw [ScaledDecimal.value_ofInt, cleared, shorten_natCast]
    exact intCast_eq_signed value.toInt
  | float x =>
    obtain ⟨hmagnitude, hnegative⟩ := ScaledDecimal.magnitude_of_ofFiniteFloat h
    rw [d.value_eq_signed, hmagnitude]
    rcases hnegative with hnegative | hzero
    · rw [hnegative]
      rfl
    · have hcleared : x.cleared = (0 : Nat) := by
        apply FiniteFloat.cleared_eq_of_magnitude_eq
        rw [FiniteFloat.magnitude_eq, hzero, magnitudeOfCode_zero, Nat.cast_zero]
      rw [cleared, hcleared, shorten_natCast]
      simp

/-- The decimal of a whole number is exact. -/
theorem value_of_scaled?_of_whole {b : CommonNumber} {d : ScaledDecimal}
    (h : b.quantity.scaled? = some d) {whole : ℤ} (hwhole : b.number.value = whole) :
    d.value = whole := by
  have hmagnitude : b.magnitude = whole.natAbs := by
    rw [← b.abs_value_number, hwhole, Nat.cast_natAbs, Int.cast_abs]
  rw [value_of_scaled? h, cleared_eq_of_magnitude_eq hmagnitude, shorten_natCast, ← hmagnitude,
    ← value_number, hwhole]

/-- Decimals are in the order of the numbers they come from. -/
theorem value_le_value_of_scaled? {a b : CommonNumber} {u v : ScaledDecimal}
    (hu : a.quantity.scaled? = some u) (hv : b.quantity.scaled? = some v)
    (h : a.number.value ≤ b.number.value) : u.value ≤ v.value := by
  have hshorten : ∀ {a b : CommonNumber}, a.magnitude ≤ b.magnitude →
      shorten 1074 a.cleared ≤ shorten 1074 b.cleared :=
    fun hle => monotone_shorten 1074 (cleared_le_cleared hle)
  have hnonneg : ∀ b : CommonNumber, 0 ≤ shorten 1074 b.cleared :=
    fun b => shorten_nonneg 1074 b.cleared_nonneg
  rw [value_number, value_number] at h
  rw [value_of_scaled? hu, value_of_scaled? hv]
  refine signed_le_signed a.magnitude_nonneg b.magnitude_nonneg (hnonneg a) (hnonneg b) hshorten
    hshorten (fun hzero => ?_) h
  rw [cleared_eq_of_magnitude_eq (n := 0) (by rw [hzero, Nat.cast_zero]), shorten_natCast,
    Nat.cast_zero]

/-! ### Places -/

/-- Where one of two numbers has no decimal, rounding to floating point keeps their order. -/
theorem toBinary64_le_toBinary64 {a b : CommonNumber} {x y : FiniteFloat}
    (hx : a.quantity.toBinary64 = .finite x) (hy : b.quantity.toBinary64 = .finite y)
    (hnone : a.quantity.scaled? = none ∨ b.quantity.scaled? = none)
    (h : a.number.value ≤ b.number.value) : x.value ≤ y.value := by
  cases a with
  | integer n =>
    cases b with
    | integer m => rcases hnone with hnone | hnone <;> cases hnone
    | float z =>
      obtain rfl := Binary64.finite.inj hy
      exact value_le_of_ofInt_le hx h
  | float z =>
    obtain rfl := Binary64.finite.inj hx
    cases b with
    | integer m => exact le_value_of_le_ofInt hy h
    | float w =>
      obtain rfl := Binary64.finite.inj hy
      exact h

/-- The places of numbers are in the order of their values. -/
theorem rank_le_rank {a b : CommonNumber} (h : a.number.value ≤ b.number.value) :
    a.quantity.rank ≤ b.quantity.rank := by
  by_cases hnone : a.quantity.scaled? = none ∨ b.quantity.scaled? = none
  · obtain ⟨x, hx, hxrange⟩ := Quantity.exists_toBinary64_eq_finite a.isFinite_quantity
    obtain ⟨y, hy, hyrange⟩ := Quantity.exists_toBinary64_eq_finite b.isFinite_quantity
    rw [← not_lt, ← Quantity.key_lt_key_iff hy hx hyrange hxrange hnone.symm, not_lt,
      ← FiniteFloat.value_le_value_iff]
    exact toBinary64_le_toBinary64 hx hy hnone h
  · obtain ⟨ha, hb⟩ := not_or.mp hnone
    obtain ⟨u, hu⟩ := Option.ne_none_iff_exists'.mp ha
    obtain ⟨v, hv⟩ := Option.ne_none_iff_exists'.mp hb
    rw [Quantity.rank_of_scaled? hu, Quantity.rank_of_scaled? hv, Prod.Lex.toLex_le_toLex]
    exact Or.inr ⟨rfl, value_le_value_of_scaled? hu hv h⟩

/-- A whole number at the place of a whole number of a condition is that number. -/
theorem eq_of_rank_eq {a : CommonNumber} {n : Int64} {whole : ℤ}
    (hwhole : a.number.value = whole) (h : a.quantity.rank = (integer n).quantity.rank) :
    whole = n.toInt := by
  have hinteger : (integer n).quantity.rank = toLex (0, (n.toInt : ℚ)) := by
    rw [Quantity.rank_of_scaled? (d := .ofInt n.toInt) rfl, ScaledDecimal.value_ofInt]
  rw [hinteger] at h
  cases hd : a.quantity.scaled? with
  | some d =>
    rw [Quantity.rank_of_scaled? hd, value_of_scaled?_of_whole hd hwhole] at h
    exact_mod_cast (Prod.mk.inj (toLex.injective h)).2
  | none =>
    obtain ⟨x, hx, hrange⟩ := Quantity.exists_toBinary64_eq_finite a.isFinite_quantity
    rw [Quantity.rank_of_toBinary64 hd hx] at h
    have hkey : x.key = 0 := (Prod.mk.inj (toLex.injective h)).1
    have hsmall : a.quantity.scaled?.isSome = true := by
      rw [hrange, hkey]
      decide
    rw [hd] at hsmall
    cases hsmall

/-- The place of a whole number among the whole numbers of conditions is exact. -/
theorem compare_rank_integer {a : CommonNumber} {whole : ℤ} (hwhole : a.number.value = whole)
    (n : Int64) :
    Ord.compare a.quantity.rank (integer n).quantity.rank = Ord.compare whole n.toInt := by
  have hle : a.number.value ≤ (integer n).number.value ↔ whole ≤ n.toInt := by
    rw [hwhole]
    exact Int.cast_le
  have hge : (integer n).number.value ≤ a.number.value ↔ n.toInt ≤ whole := by
    rw [hwhole]
    exact Int.cast_le
  rcases lt_trichotomy whole n.toInt with hlt | heq | hgt
  · have hrank : a.quantity.rank < (integer n).quantity.rank :=
      (rank_le_rank (hle.mpr hlt.le)).lt_of_ne fun h => hlt.ne (eq_of_rank_eq hwhole h)
    rw [compare_lt_iff_lt.mpr hlt, compare_lt_iff_lt.mpr hrank]
  · have hrank : a.quantity.rank = (integer n).quantity.rank :=
      (rank_le_rank (hle.mpr heq.le)).antisymm (rank_le_rank (hge.mpr heq.ge))
    rw [compare_eq_iff_eq.mpr heq, compare_eq_iff_eq.mpr hrank]
  · have hrank : (integer n).quantity.rank < a.quantity.rank :=
      (rank_le_rank (hge.mpr hgt.le)).lt_of_ne fun h => hgt.ne (eq_of_rank_eq hwhole h.symm).symm
    rw [compare_gt_iff_gt.mpr hgt, compare_gt_iff_gt.mpr hrank]

/-- The number `2 ^ 63`, which follows the whole numbers of conditions. -/
def wordEnd : CommonNumber :=
  float ⟨false, 1086 * codesPerBinade, by decide⟩

/-- The end of the words is the first integer that is none. -/
theorem value_wordEnd : wordEnd.number.value = (2 ^ 63 : ℤ) := by
  change magnitudeOfCode (1086 * codesPerBinade) = (2 ^ 63 : ℤ)
  rw [magnitudeOfCode_mul_codesPerBinade 1085]
  norm_num

end CommonNumber

/-! ### Numbers of documents -/

namespace Number

/-- A number of a document takes part in comparisons as a number that lies on the same side of all
others.  It is another number only if it is a whole number beyond the signed range. -/
structure ComparedAs (a : Number) (c : CommonNumber) : Prop where
  quantity_eq : Quantity.ofNumber a = c.quantity
  le_of_le : ∀ b : CommonNumber, a.value ≤ b.number.value → c.number.value ≤ b.number.value
  le_of_ge : ∀ b : CommonNumber, b.number.value ≤ a.value → b.number.value ≤ c.number.value
  exact_or_large : c.number.value = a.value ∨ (2 ^ 63 : ℤ) ≤ a.value

/-- A number is compared as another one of the same value with its quantity. -/
theorem ComparedAs.of_value_eq {a : Number} {c : CommonNumber}
    (hquantity : Quantity.ofNumber a = c.quantity) (hvalue : c.number.value = a.value) :
    a.ComparedAs c :=
  ⟨hquantity, fun _ h => hvalue.trans_le h, fun _ h => h.trans_eq hvalue.symm, Or.inl hvalue⟩

/-- What is no word of 64 bits is above all of these, as it is not below. -/
theorem wordEnd_le_of_int64?_eq_none {value : ℤ} (hlow : -0x8000000000000000 ≤ value)
    (h : int64? value = none) : 2 ^ 63 ≤ value := by
  rcases forall_lt_or_forall_lt_of_int64?_eq_none h with hbelow | habove
  · have hmin := hbelow Int64.minValue
    rw [Int64.toInt_minValue] at hmin
    omega
  · have hmax := habove Int64.maxValue
    rw [Int64.toInt_maxValue] at hmax
    omega

/-- A whole number beyond the signed range is rounded. -/
theorem exists_comparedAs_of_int64?_eq_none {value : ℤ}
    (range : -0x8000000000000000 ≤ value ∧ value < 0x10000000000000000) (h : int64? value = none) :
    ∃ c : CommonNumber, (integer value range).ComparedAs c := by
  have hend : 2 ^ 63 ≤ value := wordEnd_le_of_int64?_eq_none range.1 h
  obtain ⟨x, hx, -⟩ := exists_ofInt_eq_finite (n := value) (by omega)
  have hround : ∀ y : FiniteFloat, y.value ≤ value → y.value ≤ x.value :=
    fun y => le_value_of_le_ofInt hx
  have hwordEnd : CommonNumber.wordEnd.number.value ≤ x.value :=
    hround _ (CommonNumber.value_wordEnd.trans_le (Int.cast_le.mpr hend))
  refine ⟨.float x, ?_, fun b hle => ?_, fun b hge => ?_, Or.inr (Int.cast_le.mpr hend)⟩
  · simp only [Quantity.ofNumber, h, CommonNumber.quantity, hx]
  · cases b with
    | float y => exact value_le_of_ofInt_le hx hle
    | integer n => exact absurd (Int.cast_le.mp hle) (not_le.mpr (n.toInt_lt.trans_le hend))
  · cases b with
    | float y => exact hround y hge
    | integer n =>
      have hword : (CommonNumber.integer n).number.value ≤ CommonNumber.wordEnd.number.value := by
        rw [CommonNumber.value_wordEnd]
        exact Int.cast_le.mpr n.toInt_lt.le
      exact hword.trans hwordEnd

/-- Every number is compared as one that literals have as well. -/
theorem exists_comparedAs (a : Number) : ∃ c : CommonNumber, a.ComparedAs c := by
  cases a with
  | float x => exact ⟨.float x, .of_value_eq rfl rfl⟩
  | integer value range =>
    cases hword : int64? value with
    | none => exact exists_comparedAs_of_int64?_eq_none range hword
    | some n =>
      refine ⟨.integer n, .of_value_eq ?_ (congrArg Int.cast (toInt_of_int64? hword))⟩
      simp only [Quantity.ofNumber, hword, CommonNumber.quantity]

end Number

/-- No comparison of a number of a document with a number of a condition contradicts their exact
values, and a whole number of a document is compared exactly with the whole numbers of
conditions. -/
theorem order?_number_respects_value (a : Number) :
    (∀ b : CommonNumber,
      (a.value = b.number.value → b.literal.order? (.number a) = some .eq) ∧
      (a.value < b.number.value →
        b.literal.order? (.number a) = some .lt ∨ b.literal.order? (.number a) = some .eq) ∧
      (b.number.value < a.value →
        b.literal.order? (.number a) = some .gt ∨ b.literal.order? (.number a) = some .eq)) ∧
    ∀ (n : Int64) (whole : ℤ), a.value = whole →
      (Literal.integer n).order? (.number a) = some (compare whole n.toInt) := by
  obtain ⟨c, hquantity, hle, hge, hvalue⟩ := a.exists_comparedAs
  have horder : ∀ b : CommonNumber, b.literal.order? (.number a) =
      some (compare c.quantity.rank b.quantity.rank) := by
    intro b
    rw [CommonNumber.order?_literal, hquantity, CommonNumber.ofNumber_number]
  constructor
  · intro b
    have hrank : a.value ≤ b.number.value → c.quantity.rank ≤ b.quantity.rank :=
      fun h => CommonNumber.rank_le_rank (hle b h)
    have hrank' : b.number.value ≤ a.value → b.quantity.rank ≤ c.quantity.rank :=
      fun h => CommonNumber.rank_le_rank (hge b h)
    simp only [horder, Option.some_inj, compare_eq_iff_eq, compare_lt_iff_lt, compare_gt_iff_gt]
    exact ⟨fun h => (hrank h.le).antisymm (hrank' h.ge), fun h => (hrank h.le).lt_or_eq,
      fun h => (hrank' h.le).lt_or_eq.imp_right Eq.symm⟩
  · intro n whole hwhole
    change (CommonNumber.integer n).literal.order? (.number a) = _
    rw [horder]
    rcases hvalue with hsame | hlarge
    · rw [CommonNumber.compare_rank_integer (hsame.trans hwhole)]
    · -- both places are on the far side of that of `2 ^ 63`
      have hend : (CommonNumber.integer n).quantity.rank < CommonNumber.wordEnd.quantity.rank := by
        rw [← compare_gt_iff_gt, CommonNumber.compare_rank_integer CommonNumber.value_wordEnd,
          compare_gt_iff_gt]
        exact n.toInt_lt
      have hround : CommonNumber.wordEnd.quantity.rank ≤ c.quantity.rank :=
        CommonNumber.rank_le_rank (hge _ (CommonNumber.value_wordEnd.trans_le hlarge))
      have hbound : (2 ^ 63 : ℤ) ≤ whole := by
        rw [hwhole] at hlarge
        exact Int.cast_le.mp hlarge
      have hwholegt : compare whole n.toInt = .gt :=
        compare_gt_iff_gt.mpr (n.toInt_lt.trans_le hbound)
      rw [hwholegt, compare_gt_iff_gt.mpr (hend.trans_le hround)]

/-- The largest whole number of a document lies between the largest one of a condition and
`2 ^ 64`. -/
theorem order?_number_respects_value_large :
    let a : Number := .integer 18446744073709551615 (by decide)
    let b : CommonNumber := .float ⟨false, 1087 * codesPerBinade, by decide⟩
    let n : Int64 := 9223372036854775807
    (a.value < b.number.value ∧
      (b.literal.order? (.number a) = some .lt ∨ b.literal.order? (.number a) = some .eq)) ∧
    ((CommonNumber.integer n).number.value < a.value ∧
      ((Literal.integer n).order? (.number a) = some .gt ∨
        (Literal.integer n).order? (.number a) = some .eq)) ∧
    b.literal.order? (.number b.number) = some .eq ∧
    b.number.value = (2 ^ 64 : ℤ) ∧
    (Literal.integer n).order? (.number b.number) = some (compare (2 ^ 64) n.toInt) := by
  intro a b n
  have hvalue : b.number.value = (2 ^ 64 : ℤ) := by
    change magnitudeOfCode (1087 * codesPerBinade) = (2 ^ 64 : ℤ)
    rw [magnitudeOfCode_mul_codesPerBinade 1086]
    norm_num
  have hlt : a.value < b.number.value := by
    rw [hvalue]
    exact Int.cast_lt.mpr (by decide)
  have hgt : (CommonNumber.integer n).number.value < a.value := Int.cast_lt.mpr (by decide)
  exact ⟨⟨hlt, ((order?_number_respects_value a).1 b).2.1 hlt⟩,
    ⟨hgt, ((order?_number_respects_value a).1 (.integer n)).2.2 hgt⟩,
    ((order?_number_respects_value b.number).1 b).1 rfl, hvalue,
    (order?_number_respects_value b.number).2 n (2 ^ 64) hvalue⟩

/-- Numbers that are not equal need not be told apart: here the whole number is rounded. -/
example : (Literal.float (.finite ⟨false, 1087 * codesPerBinade, by decide⟩)).order?
    (.number (.integer 18446744073709551615 (by decide))) = some .eq := by decide +kernel

end JsonSelect
