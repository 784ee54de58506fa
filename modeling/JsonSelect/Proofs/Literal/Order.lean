import Mathlib.Algebra.Order.Field.Basic
import Mathlib.Algebra.Order.Field.Rat
import Mathlib.Data.Prod.Lex
import Mathlib.Tactic.Positivity
import Mathlib.Tactic.Common
import JsonSelect.Literal
import JsonSelect.Proofs.Numeric.ScaledRange

/-!
# One order of numbers

Two numbers are compared as whole numbers, as decimals of bounded size, or as floating-point
numbers, whichever the two allow.  Nevertheless there is one order behind it.  A number with a
decimal stands at the value of its decimal, which is exact for whole numbers.  A number without one
is so large that it stands beyond all of these, on the side of its sign, and among its like in
the order of floating point.  `Quantity.rank` is that place, and every comparison is the comparison
of two places (`compare?_eq_compare_rank`).

Hence all numbers of documents can be compared with all numbers of conditions, in an order that is
total and transitive.
-/

namespace JsonSelect

/-! ### The order of decimals -/

/-- The exact value. -/
def ScaledDecimal.value (d : ScaledDecimal) : ℚ :=
  d.signedCoefficient / 10 ^ d.places

/-- An order that is kept in both directions is the same order. -/
theorem compare_eq_compare_of_lt_iff {α β : Type} [LinearOrder α] [LinearOrder β] {a b : α}
    {a' b' : β} (h : a < b ↔ a' < b') (h' : b < a ↔ b' < a') : compare a b = compare a' b' := by
  rcases lt_trichotomy a b with hlt | rfl | hlt
  · rw [compare_lt_iff_lt.mpr hlt, compare_lt_iff_lt.mpr (h.mp hlt)]
  · have heq : a' = b' :=
      le_antisymm (not_lt.mp fun hlt => lt_irrefl _ (h'.mpr hlt))
        (not_lt.mp fun hlt => lt_irrefl _ (h.mpr hlt))
    rw [compare_eq_iff_eq.mpr rfl, compare_eq_iff_eq.mpr heq]
  · rw [compare_gt_iff_gt.mpr hlt, compare_gt_iff_gt.mpr (h'.mp hlt)]

/-- Decimals are compared by their values. -/
theorem ScaledDecimal.compare_eq_compare_value (a b : ScaledDecimal) :
    a.compare b = Ord.compare a.value b.value := by
  have hlt : ∀ a b : ScaledDecimal,
      a.signedCoefficient * Nat.pow 10 b.places < b.signedCoefficient * Nat.pow 10 a.places ↔
        a.value < b.value := by
    intro a b
    rw [value, value, div_lt_div_iff₀ (by positivity) (by positivity)]
    simp only [Nat.pow_eq]
    exact_mod_cast Iff.rfl
  exact compare_eq_compare_of_lt_iff (hlt a b) (hlt b a)

/-- The decimal of a whole number has its value. -/
theorem ScaledDecimal.value_ofInt (n : Int) : (ofInt n).value = n := by
  have hsigned : (ofInt n).signedCoefficient = n := by
    unfold signedCoefficient ofInt
    by_cases h : n < 0
    · simp only [h, decide_true, if_true]
      omega
    · simp only [h, decide_false, Bool.false_eq_true, if_false]
      omega
  rw [value, hsigned]
  simp [ofInt]

/-! ### The place of a number -/

/-- The number on the line of codes is as far from zero as its code says. -/
theorem FiniteFloat.natAbs_key (x : FiniteFloat) : x.key.natAbs = x.code := by
  unfold key
  split <;> omega

namespace Quantity

/-- Whether a number is finite. -/
def IsFinite : Quantity → Prop
  | integer _ => True
  | float value => ∃ x, value = .finite x

/-- The place of a number: the value of its decimal, or beyond all decimals. -/
def rank (q : Quantity) : ℤ ×ₗ ℚ :=
  match q.scaled? with
  | some d => toLex (0, d.value)
  | none => toLex (q.toBinary64.key?.getD 0, 0)

/-- The decimal of a whole number is exact, so that whole numbers are compared like all numbers
with decimals. -/
theorem compare?_eq (a b : Quantity) :
    a.compare? b =
      match a.scaled?, b.scaled? with
      | some x, some y => some (x.compare y)
      | _, _ => a.toBinary64.compare? b.toBinary64 := by
  cases a with
  | float a => cases b <;> rfl
  | integer a =>
    cases b with
    | float b => rfl
    | integer b =>
      have hexact : (ScaledDecimal.ofInt a.toInt).compare (ScaledDecimal.ofInt b.toInt) =
          Ord.compare a.toInt b.toInt := by
        rw [ScaledDecimal.compare_eq_compare_value, ScaledDecimal.value_ofInt,
          ScaledDecimal.value_ofInt]
        exact compare_eq_compare_of_lt_iff Int.cast_lt Int.cast_lt
      exact congrArg some hexact.symm

/-- A finite number has a decimal exactly if it is not too large as a floating-point number. -/
theorem exists_toBinary64_eq_finite {q : Quantity} (hq : q.IsFinite) :
    ∃ x : FiniteFloat, q.toBinary64 = .finite x ∧
      (q.scaled?.isSome = true ↔ x.key.natAbs < ScaledDecimal.unscaledCode) := by
  simp only [FiniteFloat.natAbs_key]
  cases q with
  | integer value =>
    have hrange : value.toInt.natAbs < 2 ^ 64 := by
      have hlow := value.le_toInt
      have hhigh := value.toInt_lt
      omega
    obtain ⟨x, hx, hcode⟩ := exists_ofInt_eq_finite hrange
    exact ⟨x, hx, iff_of_true rfl hcode⟩
  | float value =>
    obtain ⟨x, rfl⟩ := hq
    exact ⟨x, rfl, ScaledDecimal.isSome_ofFiniteFloat_iff x⟩

/-- A number with a decimal is ranked by the value of that decimal. -/
theorem rank_of_scaled? {q : Quantity} {d : ScaledDecimal} (h : q.scaled? = some d) :
    q.rank = toLex (0, d.value) := by
  rw [rank, h]

/-- A number without a decimal is ranked by its float. -/
theorem rank_of_toBinary64 {q : Quantity} {x : FiniteFloat} (h : q.scaled? = none)
    (hx : q.toBinary64 = .finite x) : q.rank = toLex (x.key, 0) := by
  rw [rank, h, hx]
  rfl

/-- Where one of two numbers has no decimal, their places are in the order of floating point. -/
theorem key_lt_key_iff {a b : Quantity} {x y : FiniteFloat} (hx : a.toBinary64 = .finite x)
    (hy : b.toBinary64 = .finite y)
    (hxrange : a.scaled?.isSome = true ↔ x.key.natAbs < ScaledDecimal.unscaledCode)
    (hyrange : b.scaled?.isSome = true ↔ y.key.natAbs < ScaledDecimal.unscaledCode)
    (hnone : a.scaled? = none ∨ b.scaled? = none) : x.key < y.key ↔ a.rank < b.rank := by
  cases hu : a.scaled? with
  | some u =>
    have hv : b.scaled? = none := hnone.resolve_left (by rw [hu]; exact Option.some_ne_none u)
    have hxsmall : x.key.natAbs < ScaledDecimal.unscaledCode := hxrange.mp (by rw [hu]; rfl)
    have hylarge : ¬ y.key.natAbs < ScaledDecimal.unscaledCode := by
      rw [← hyrange, hv]
      exact Bool.false_ne_true
    rw [rank_of_scaled? hu, rank_of_toBinary64 hv hy, Prod.Lex.toLex_lt_toLex]
    omega
  | none =>
    have hxlarge : ¬ x.key.natAbs < ScaledDecimal.unscaledCode := by
      rw [← hxrange, hu]
      exact Bool.false_ne_true
    cases hv : b.scaled? with
    | some v =>
      have hysmall : y.key.natAbs < ScaledDecimal.unscaledCode := hyrange.mp (by rw [hv]; rfl)
      rw [rank_of_toBinary64 hu hx, rank_of_scaled? hv, Prod.Lex.toLex_lt_toLex]
      omega
    | none =>
      rw [rank_of_toBinary64 hu hx, rank_of_toBinary64 hv hy, Prod.Lex.toLex_lt_toLex]
      simp

/-- Every comparison of finite numbers is the comparison of their places. -/
theorem compare?_eq_compare_rank {a b : Quantity} (ha : a.IsFinite) (hb : b.IsFinite) :
    a.compare? b = some (Ord.compare a.rank b.rank) := by
  obtain ⟨x, hx, hxrange⟩ := exists_toBinary64_eq_finite ha
  obtain ⟨y, hy, hyrange⟩ := exists_toBinary64_eq_finite hb
  rw [compare?_eq]
  split
  · next u v hu hv =>
    rw [rank_of_scaled? hu, rank_of_scaled? hv, ScaledDecimal.compare_eq_compare_value]
    rfl
  · next hscaled =>
    have hnone : a.scaled? = none ∨ b.scaled? = none := by
      by_contra hsome
      obtain ⟨ha', hb'⟩ := not_or.mp hsome
      obtain ⟨u, hu⟩ := Option.ne_none_iff_exists'.mp ha'
      obtain ⟨v, hv⟩ := Option.ne_none_iff_exists'.mp hb'
      exact hscaled u v hu hv
    have hplaces : Ord.compare x.key y.key = Ord.compare a.rank b.rank :=
      compare_eq_compare_of_lt_iff (key_lt_key_iff hx hy hxrange hyrange hnone)
        (key_lt_key_iff hy hx hyrange hxrange hnone.symm)
    rw [hx, hy]
    exact congrArg some hplaces

end Quantity

/-! ### Numbers in documents and conditions -/

/-- Every number of a document is finite, the ones beyond the signed range included. -/
theorem Quantity.isFinite_ofNumber (a : Number) : (Quantity.ofNumber a).IsFinite := by
  cases a with
  | float value => exact ⟨value, rfl⟩
  | integer value range =>
    have hrange : value.natAbs < 2 ^ 64 := by omega
    dsimp only [ofNumber]
    split
    · trivial
    · obtain ⟨x, hx, -⟩ := exists_ofInt_eq_finite hrange
      exact ⟨x, hx⟩

/-- A number that can stand in a document as well as in a condition. -/
inductive CommonNumber where
  | integer (value : Int64)
  | float (value : FiniteFloat)

namespace CommonNumber

/-- The number as the literal of a condition. -/
def literal : CommonNumber → Literal
  | integer value => .integer value
  | float value => .float (.finite value)

/-- The number as it stands in a document. -/
def number : CommonNumber → Number
  | integer value => .integer value.toInt (by
      have hlow := value.le_toInt
      have hhigh := value.toInt_lt
      omega)
  | float value => .float value

/-- The number as it takes part in comparisons. -/
def quantity : CommonNumber → Quantity
  | integer value => .integer value
  | float value => .float (.finite value)

/-- A number that literals and nodes have in common is compared as the same quantity. -/
theorem ofNumber_number (b : CommonNumber) : Quantity.ofNumber b.number = b.quantity := by
  cases b with
  | float value => rfl
  | integer value => simp only [number, Quantity.ofNumber, int64?_toInt, quantity]

theorem isFinite_quantity (b : CommonNumber) : b.quantity.IsFinite := by
  rw [← ofNumber_number]
  exact Quantity.isFinite_ofNumber b.number

/-- A node is compared with a literal by the places of the two numbers. -/
theorem order?_literal (a : Number) (b : CommonNumber) :
    b.literal.order? (.number a) =
      some (Ord.compare (Quantity.ofNumber a).rank (Quantity.ofNumber b.number).rank) := by
  rw [ofNumber_number,
    ← Quantity.compare?_eq_compare_rank (Quantity.isFinite_ofNumber a) b.isFinite_quantity]
  cases b <;> rfl

end CommonNumber

namespace Number

/-- A number of a document is at most as large as that of a condition. -/
def AtMost (a : Number) (b : CommonNumber) : Prop :=
  ∃ order, b.literal.order? (.number a) = some order ∧ order.isLE = true

/-- A number of a document is smaller than that of a condition. -/
def Below (a : Number) (b : CommonNumber) : Prop :=
  b.literal.order? (.number a) = some .lt

/-- A number is at most another one exactly if its rank is. -/
theorem atMost_iff {a : Number} {b : CommonNumber} :
    a.AtMost b ↔ (Quantity.ofNumber a).rank ≤ (Quantity.ofNumber b.number).rank := by
  rw [AtMost, CommonNumber.order?_literal, ← compare_le_iff_le]
  simp [Ordering.isLE_iff_ne_gt]

/-- A number is below another one exactly if its rank is. -/
theorem below_iff {a : Number} {b : CommonNumber} :
    a.Below b ↔ (Quantity.ofNumber a).rank < (Quantity.ofNumber b.number).rank := by
  rw [Below, CommonNumber.order?_literal, Option.some_inj, compare_lt_iff_lt]

end Number

/-- Numbers of documents can always be compared with numbers of conditions.  Exchanging the two
turns the order around, and the order is transitive, strictly so where one of its two steps is
strict, whichever of the three comparisons is used in each step. -/
theorem order?_number_transitive :
    (∀ (a : Number) (b : CommonNumber), ∃ order, b.literal.order? (.number a) = some order) ∧
    (∀ a b : CommonNumber, a.literal.order? (.number b.number) =
      (b.literal.order? (.number a.number)).map Ordering.swap) ∧
    ∀ (a : Number) (b c : CommonNumber), a.AtMost b → b.number.AtMost c →
      a.AtMost c ∧ (a.Below b ∨ b.number.Below c → a.Below c) := by
  refine ⟨fun a b => ⟨_, CommonNumber.order?_literal a b⟩, fun a b => ?_, fun a b c hab hbc => ?_⟩
  · rw [CommonNumber.order?_literal, CommonNumber.order?_literal, Option.map_some]
    exact congrArg some Std.OrientedOrd.eq_swap
  · rw [Number.atMost_iff] at hab hbc
    rw [Number.atMost_iff, Number.below_iff, Number.below_iff, Number.below_iff]
    refine ⟨hab.trans hbc, ?_⟩
    rintro (hlt | hlt)
    · exact hlt.trans_le hbc
    · exact hab.trans_lt hlt

/-- The largest whole number of a document, a float with a decimal, and one that is too large. -/
theorem order?_number_transitive_mixed :
    let a : Number := .integer 18446744073709551615 (by decide)
    let b : CommonNumber := .float ⟨false, 1100 * codesPerBinade, by decide⟩
    let c : CommonNumber := .float ⟨false, 1120 * codesPerBinade, by decide⟩
    a.AtMost b ∧ b.number.AtMost c ∧ a.AtMost c ∧ (a.Below b ∨ b.number.Below c → a.Below c) := by
  intro a b c
  have hab : a.AtMost b := ⟨.lt, by decide +kernel, rfl⟩
  have hbc : b.number.AtMost c := ⟨.lt, by decide +kernel, rfl⟩
  exact ⟨hab, hbc, order?_number_transitive.2.2 a b c hab hbc⟩

end JsonSelect
