/-!
# Binary floating-point numbers of 64 bits

A finite number is a sign together with the *code* of its magnitude: the 63 low bits of the
standard 64-bit word, read as a natural number. Codes are ordered like the magnitudes they
stand for, neighbouring codes are neighbouring numbers, and the code `infinityCode` that would
follow the largest finite magnitude is the one of infinity. The magnitude of a code is
`significand * 2 ^ exponent`.

A ratio of natural numbers is rounded to the nearest code, and halfway between two codes to the
even one (`roundRatio`). All of this is arithmetic on natural numbers; the machine's own
floating-point operations are not used.
-/

namespace JsonSelect

/-! ### Finite numbers -/

/-- How many codes there are from one power of two up to the next: `2 ^ 52`. -/
def codesPerBinade : Nat :=
  1 <<< 52

/-- The code that follows the largest finite magnitude. -/
def infinityCode : Nat :=
  2047 * codesPerBinade

/-- A finite number: a sign and the code of a magnitude. Zero has both signs. -/
structure FiniteFloat where
  negative : Bool
  code : Nat
  code_lt : code < infinityCode
  deriving DecidableEq

namespace FiniteFloat

/-- The whole-number factor of the magnitude: the fraction field, with the leading bit that is
implied for every magnitude but the smallest ones. -/
def significand (x : FiniteFloat) : Nat :=
  if x.code < codesPerBinade then x.code else x.code % codesPerBinade + codesPerBinade

/-- The power of two that scales the significand, from `-1074` to `971`. -/
def exponent (x : FiniteFloat) : Int :=
  (max (x.code / codesPerBinade) 1 : Nat) - 1075

/-- Numerator of the magnitude as a ratio of whole numbers. -/
def numerator (x : FiniteFloat) : Nat :=
  x.significand <<< x.exponent.toNat

/-- Denominator of the magnitude as a ratio of whole numbers, a power of two. -/
def denominator (x : FiniteFloat) : Nat :=
  1 <<< (-x.exponent).toNat

/-- The position of the number on the line of codes: negative numbers below zero, and both
zeros at the same place. -/
def key (x : FiniteFloat) : Int :=
  if x.negative then -(x.code : Int) else x.code

theorem denominator_pos (x : FiniteFloat) : 0 < x.denominator := by
  rw [denominator, Nat.one_shiftLeft]
  exact Nat.two_pow_pos _

end FiniteFloat

/-! ### All numbers -/

/-- A 64-bit floating-point number: finite, infinite, or not a number at all. -/
inductive Binary64 where
  | finite (x : FiniteFloat)
  | infinite (negative : Bool)
  | nan (negative : Bool)
  deriving DecidableEq

namespace Binary64

/-- The place on the line of codes, infinities included; what is not a number has none. -/
def key? : Binary64 → Option Int
  | .finite x => some x.key
  | .infinite negative => some (if negative then -(infinityCode : Int) else infinityCode)
  | .nan _ => none

/-- The order of two numbers; the two zeros are equal, and nothing can be said of a number that
is not one. -/
def compare? (x y : Binary64) : Option Ordering :=
  match x.key?, y.key? with
  | some a, some b => some (compare a b)
  | _, _ => none

/-- The 64 bits of the number: the sign on top of the code. -/
def bits (x : Binary64) : Nat :=
  match x with
  | .finite x => signBit x.negative + x.code
  | .infinite negative => signBit negative + infinityCode
  | .nan negative => signBit negative + infinityCode + 1 <<< 51
where
  /-- The weight of the sign. -/
  signBit (negative : Bool) : Nat :=
    if negative then 1 <<< 63 else 0

/-- The number with the given code, infinite when there is no such finite magnitude. -/
def ofCode (negative : Bool) (code : Nat) : Binary64 :=
  if h : code < infinityCode then .finite ⟨negative, code, h⟩ else .infinite negative

end Binary64

/-! ### Rounding to the nearest -/

/-- The quotient rounded to the nearest whole number, a half going to the even neighbour. -/
def divideHalfEven (num den : Nat) : Nat :=
  let quotient := num / den
  let remainder := num % den
  if 2 * remainder < den then quotient
  else if den < 2 * remainder then quotient + 1
  else quotient + quotient % 2

/-- The largest `k` with `2 ^ k ≤ num / den`, for a positive ratio. -/
def ratioLog2 (num den : Nat) : Int :=
  let k : Int := (num.log2 : Int) - den.log2
  if den <<< k.toNat ≤ num <<< (-k).toNat then k else k - 1

/-- The code nearest to a ratio. The spacing of the codes around the ratio is `2 ^ e`, and never
finer than `2 ^ (-1074)`; the rounded multiple of the spacing may reach the next power of two,
whose code is again the sum below. -/
def roundRatio (num den : Nat) : Nat :=
  if num = 0 then 0 else
    let e := max (-1074) (ratioLog2 num den - 52)
    (e + 1074).toNat * codesPerBinade + divideHalfEven (num <<< (-e).toNat) (den <<< e.toNat)

namespace Binary64

/-- The number nearest to a signed ratio. -/
def ofRatio (negative : Bool) (num den : Nat) : Binary64 :=
  ofCode negative (roundRatio num den)

/-- The number nearest to an integer. -/
def ofInt (n : Int) : Binary64 :=
  ofRatio (decide (n < 0)) n.natAbs 1

end Binary64

end JsonSelect
