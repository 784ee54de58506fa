import JsonSelect.Numeric.Integer
import JsonSelect.Numeric.Binary64

/-!
# Decimal numerals

A decimal is a whole coefficient and a power of ten. Its text, a *numeral*, has digits with at
most one point among them, on either side of which the digits may be missing but not on both,
and then optionally an exponent: `1.`, `.5`, `00.5` and `1E+3` are numerals, `.`, `1e` and `1_0`
are not. A numeral has no sign of its own.

A decimal is read as the nearest 64-bit floating-point number (`Decimal.toBinary64`).
-/

namespace JsonSelect

/-- The number `coefficient * 10 ^ exponent`. -/
structure Decimal where
  coefficient : Nat
  exponent : Int
  deriving DecidableEq

namespace Decimal

/-! ### Rounding to floating point -/

/-- The code of the magnitude nearest to the decimal. Powers of ten that leave the range of
finite numbers on either side are recognised before they are computed: `10 ^ 309` is above every
finite magnitude, and `10 ^ (-324)` is below half of the smallest one. -/
def code (d : Decimal) : Nat :=
  if d.coefficient = 0 then 0
  else if 308 < d.exponent then infinityCode
  else if d.exponent + (decimalDigits d.coefficient).length ≤ -324 then 0
  else roundRatio (d.coefficient * Nat.pow 10 d.exponent.toNat) (Nat.pow 10 (-d.exponent).toNat)

/-- The signed number nearest to the decimal. -/
def toBinary64 (negative : Bool) (d : Decimal) : Binary64 :=
  .ofCode negative d.code

end Decimal

/-! ### Reading numerals -/

/-- Reads a whole-number exponent with an optional sign. -/
def readSignedDigits : List Char → Option Int
  | '-' :: digits => if isDigitRun digits then some (-(digitsValue digits : Int)) else none
  | '+' :: digits => if isDigitRun digits then some (digitsValue digits) else none
  | digits => if isDigitRun digits then some (digitsValue digits) else none

/-- Reads what follows the digits of a numeral: nothing, or an exponent. -/
def readExponent : List Char → Option Int
  | [] => some 0
  | c :: rest => if c = 'e' ∨ c = 'E' then readSignedDigits rest else none

/-- Splits off the digits after a point, if a point comes next. -/
def splitFraction : List Char → List Char × List Char
  | '.' :: rest => (rest.takeWhile Char.isDigit, rest.dropWhile Char.isDigit)
  | rest => ([], rest)

/-- The decimal with the given digits before and after the point, scaled by a power of ten. -/
def Decimal.ofDigits (whole fraction : List Char) (exponent : Int) : Decimal :=
  ⟨digitsValue (whole ++ fraction), exponent - fraction.length⟩

/-- Reads a text that is a numeral from end to end. -/
def readNumeral (text : List Char) : Option Decimal :=
  let whole := text.takeWhile Char.isDigit
  let (fraction, rest) := splitFraction (text.dropWhile Char.isDigit)
  if whole.isEmpty && fraction.isEmpty then none
  else (readExponent rest).map (Decimal.ofDigits whole fraction)

/-- Reads the magnitude of a floating-point text: a numeral, or a word for infinity or for what
is not a number, in any mixture of case. -/
def readMagnitude (negative : Bool) (text : List Char) : Option Binary64 :=
  let word := String.ofList (text.map Char.toLower)
  if word = "inf" ∨ word = "infinity" then some (.infinite negative)
  else if word = "nan" then some (.nan negative)
  else (readNumeral text).map (Decimal.toBinary64 negative)

/-- Reads a floating-point text with an optional sign. -/
def readBinary64 : List Char → Option Binary64
  | '-' :: rest => readMagnitude true rest
  | '+' :: rest => readMagnitude false rest
  | rest => readMagnitude false rest

end JsonSelect
