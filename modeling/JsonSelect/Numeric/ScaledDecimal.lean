import JsonSelect.Numeric.Binary64

/-!
# Decimals of bounded size

Numbers are compared as decimals with a coefficient below `2 ^ 96` and at most 28 places after
the point. A whole number of 64 bits has such a decimal exactly. A floating-point number gets
one in steps, each of which moves one factor of two or ten between the coefficient `m` and the
powers that scale it, and rounds or cuts off what no longer fits:

* a negative power of two is worked off by halving an even coefficient, by multiplying with
  five, or, where that would not fit, by halving and losing the last bit (`clearNegative`);
* a positive power of two is worked off by doubling, or by dividing by five (`clearPositive`);
* a positive power of ten is multiplied out (`expand`);
* places beyond the 28th are rounded away (`limitPlaces`), and then further places for as long
  as the coefficient has more than 52 bits (`limitBits`).

The result is therefore not always the exact value: numbers that differ only beyond the
precision kept share one decimal, very small numbers become zero, and numbers too large for the
coefficient have none.
-/

namespace JsonSelect

/-- The number `± coefficient / 10 ^ places`. -/
structure ScaledDecimal where
  negative : Bool
  coefficient : Nat
  places : Nat
  deriving DecidableEq

namespace ScaledDecimal

/-- The decimal of a whole number. -/
def ofInt (n : Int) : ScaledDecimal :=
  ⟨decide (n < 0), n.natAbs, 0⟩

/-- The coefficient with its sign. -/
def signedCoefficient (d : ScaledDecimal) : Int :=
  if d.negative then -(d.coefficient : Int) else d.coefficient

/-- The order of the exact values, brought to a common number of places. -/
def compare (a b : ScaledDecimal) : Ordering :=
  Ord.compare (a.signedCoefficient * Nat.pow 10 b.places)
    (b.signedCoefficient * Nat.pow 10 a.places)

/-! ### From floating point -/

/-- A coefficient and a power of ten, halfway through a conversion. -/
structure Interim where
  coefficient : Nat
  exponent : Int

/-- Works off a power `2 ^ (-steps)`. -/
def clearNegative : (steps : Nat) → Interim → Interim
  | 0, p => p
  | steps + 1, ⟨m, e⟩ =>
    if m % 2 = 0 then clearNegative steps ⟨m / 2, e + 1⟩
    else if 5 * m < 1 <<< 96 then clearNegative steps ⟨5 * m, e⟩
    else clearNegative steps ⟨m / 2, e + 1⟩

/-- Works off a power `2 ^ steps`. There is no result once more than half of the remaining
steps would have to come out of the power of ten. -/
def clearPositive : (steps : Nat) → Interim → Option Interim
  | 0, p => some p
  | steps + 1, ⟨m, e⟩ =>
    if m < 1 <<< 95 then clearPositive steps ⟨2 * m, e - 1⟩
    else if 2 * e > steps + 1 then none
    else clearPositive steps ⟨m / 5, e⟩

/-- Multiplies a power `10 ^ steps` out, if the coefficient stays below its bound. -/
def expand : (steps : Nat) → (m : Nat) → Option Nat
  | 0, m => some m
  | steps + 1, m => if 10 * m < 1 <<< 96 then expand steps (10 * m) else none

/-- Rounds `steps` places away, the last one to the nearest with halves upwards at each step. A
coefficient that vanishes leaves a plain zero. -/
def limitPlaces : (steps : Nat) → Interim → Interim
  | 0, p => p
  | steps + 1, ⟨m, e⟩ =>
    if m / 10 = 0 then ⟨0, 0⟩
    else if 5 ≤ m % 10 then limitPlaces steps ⟨m / 10 + 1, e + 1⟩
    else limitPlaces steps ⟨m / 10, e + 1⟩

/-- Rounds places away for as long as there are any and the coefficient has more than 52 bits;
the result is the coefficient and its number of places. -/
def limitBits : (places : Nat) → (m : Nat) → Nat × Nat
  | 0, m => (m, 0)
  | places + 1, m =>
    if m < 1 <<< 52 then (m, places + 1)
    else if 5 ≤ m % 10 then limitBits places (m / 10 + 1)
    else limitBits places (m / 10)

/-- The end of the conversion: a power of ten above one is multiplied out, one below it becomes
places after the point. -/
def finish (negative : Bool) (p : Interim) : Option ScaledDecimal := do
  let m ← expand p.exponent.toNat p.coefficient
  let p := limitPlaces (-28 - p.exponent).toNat ⟨m, min p.exponent 0⟩
  let (m, places) := limitBits (-p.exponent).toNat p.coefficient
  return ⟨negative, m, places⟩

/-- The decimal of a finite number, if it has one. -/
def ofFiniteFloat (x : FiniteFloat) : Option ScaledDecimal :=
  if x.code = 0 then some ⟨false, 0, 0⟩
  else
    let start : Interim := ⟨x.significand, x.exponent⟩
    if x.exponent < 0 then finish x.negative (clearNegative (-x.exponent).toNat start)
    else (clearPositive x.exponent.toNat start).bind (finish x.negative)

/-- The decimal of a floating-point number, if it has one. -/
def ofBinary64 : Binary64 → Option ScaledDecimal
  | .finite x => ofFiniteFloat x
  | _ => none

end ScaledDecimal

end JsonSelect
