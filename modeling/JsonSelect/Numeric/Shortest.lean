import JsonSelect.Numeric.Decimal

/-!
# Shortest decimals

The digits written for a floating-point number are the fewest that read back as that number and,
among those, the nearest to it. Decimals with a fixed number of significant digits form a grid;
the candidates on a grid are the two neighbours of the number, and the first grid, from one digit
upwards, with a neighbour that reads back is the one chosen. If both neighbours read back and lie
equally near, a format's own rule decides.

Seventeen digits are enough for every number. The exact decimal expansion stands behind them, so
the function is total and its result reads back in every case.
-/

namespace JsonSelect

/-- What to do when a number lies halfway between two equally short decimals. -/
inductive Tie where
  /-- Take the larger magnitude. -/
  | away
  /-- Take the one whose last digit is even. -/
  | even
  deriving DecidableEq

/-- The largest `k` with `10 ^ k ≤ num / den`, for a positive ratio. -/
def ratioLog10 (num den : Nat) : Int :=
  if den ≤ num then (decimalDigits (num / den)).length - 1
  else -((decimalDigits ((den - 1) / num)).length : Int)

namespace FiniteFloat

/-- The magnitude written out in full. -/
def exactDecimal (x : FiniteFloat) : Decimal :=
  ⟨x.significand <<< x.exponent.toNat * Nat.pow 5 (-x.exponent).toNat, min x.exponent 0⟩

/-- Whether a decimal is read as the magnitude of the number. -/
def readsBack (x : FiniteFloat) (d : Decimal) : Bool :=
  d.code = x.code

/-- Of the two neighbours `low` and `low + 1` in units of `10 ^ scale`, the nearer one. -/
def nearer (tie : Tie) (x : FiniteFloat) (low : Nat) (scale : Int) : Nat :=
  let twice := 2 * x.numerator * Nat.pow 10 (-scale).toNat
  let middle := (2 * low + 1) * (x.denominator * Nat.pow 10 scale.toNat)
  match compare twice middle with
  | .lt => low
  | .gt => low + 1
  | .eq =>
    match tie with
    | .away => low + 1
    | .even => if low % 2 = 0 then low else low + 1

/-- The decimal with `digits` significant digits that reads back and is nearest, if any does. -/
def onGrid (tie : Tie) (x : FiniteFloat) (digits : Nat) : Option Decimal :=
  let scale := ratioLog10 x.numerator x.denominator - digits + 1
  let low := x.numerator * Nat.pow 10 (-scale).toNat / (x.denominator * Nat.pow 10 scale.toNat)
  match x.readsBack ⟨low, scale⟩, x.readsBack ⟨low + 1, scale⟩ with
  | true, true => some ⟨nearer tie x low scale, scale⟩
  | true, false => some ⟨low, scale⟩
  | false, true => some ⟨low + 1, scale⟩
  | false, false => none

/-- The shortest decimal of a number. -/
def shortest (tie : Tie) (x : FiniteFloat) : Decimal :=
  if x.code = 0 then ⟨0, 0⟩
  else ((List.range 17).findSome? fun i => x.onGrid tie (i + 1)).getD x.exactDecimal

end FiniteFloat

end JsonSelect
