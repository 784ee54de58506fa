import JsonSelect.Numeric.Shortest

/-!
# Layout of floating-point numbers

The significant digits of a number can be laid out in two ways: positionally, with as many zeros
as it takes, or in scientific form with one digit before the point. Both drop the zeros that end
the digits. A `FloatFormat` holds the decisions of one format.
-/

namespace JsonSelect

/-- Significant digits, the first and last of which are not zero, and the place of the point:
the number is `0.d₁d₂d₃… * 10 ^ point`. Zero is the digit zero before its point. -/
structure DigitString where
  digits : List Char
  point : Int

namespace DigitString

/-- The digits of a decimal, without the zeros at their end. -/
def ofDecimal (d : Decimal) : DigitString :=
  let all := decimalDigits d.coefficient
  if d.coefficient = 0 then ⟨['0'], 1⟩
  else ⟨(all.reverse.dropWhile (· == '0')).reverse, d.exponent + all.length⟩

/-- A run of zeros. -/
def zeros (n : Nat) : List Char :=
  List.replicate n '0'

/-- The digits with the point where it belongs, after which `whole` follows a number that has
no fraction. -/
def positional (whole : List Char) (s : DigitString) : List Char :=
  if s.point ≤ 0 then
    ['0', '.'] ++ zeros (-s.point).toNat ++ s.digits
  else if s.digits.length ≤ s.point.toNat then
    s.digits ++ zeros (s.point.toNat - s.digits.length) ++ whole
  else
    s.digits.take s.point.toNat ++ '.' :: s.digits.drop s.point.toNat

/-- The first digit, the others after a point, and a signed exponent. -/
def scientific (s : DigitString) : List Char :=
  let exponent := s.point - 1
  let sign := if exponent < 0 then '-' else '+'
  let mantissa :=
    match s.digits with
    | first :: second :: others => first :: '.' :: second :: others
    | digits => digits
  mantissa ++ 'e' :: sign :: decimalDigits exponent.natAbs

end DigitString

/-- A sign before the text of a magnitude. -/
def signed (negative : Bool) (text : List Char) : List Char :=
  if negative then '-' :: text else text

/-- How a format writes finite numbers. -/
structure FloatFormat where
  /-- Which of two equally short and equally near decimals is written. -/
  tie : Tie
  /-- What follows a number without a fraction. -/
  afterWhole : List Char
  /-- For which places of the point a number is written positionally. -/
  isPositional : Int → Bool

/-- The text of a number in a format. -/
def FloatFormat.text (format : FloatFormat) (x : FiniteFloat) : List Char :=
  let s := DigitString.ofDecimal (x.shortest format.tie)
  signed x.negative <|
    if format.isPositional s.point then s.positional format.afterWhole else s.scientific

end JsonSelect
