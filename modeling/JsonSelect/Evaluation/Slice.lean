import JsonSelect.Numeric.Integer
import JsonSelect.Json.Basic

/-!
# Slices

A slice runs through an array from a start to a stop, which is not reached, in steps of fixed
size. A missing start or stop is the end of the array from which, or towards which, the step
moves. Negative positions count from the end of the array, and positions beyond its ends are
moved to where they make no difference. A backward slice may stop at `-1`, before the first
element.

Positions are 64-bit words, and a step that would leave their range ends the slice.
-/

namespace JsonSelect

/-- The closest value between two bounds. -/
def clamp (low high value : Int64) : Int64 :=
  if value < low then low else if high < value then high else value

/-- The bounds of a slice in an array, all of them settled. -/
structure SliceBounds where
  start : Int64
  stop : Int64
  step : Int64
  step_ne_zero : step ≠ 0

namespace SliceBounds

/-- The length of an array as a word. -/
def lengthWord (length : Nat) : Int64 :=
  if length < 1 <<< 63 then Int64.ofNat length else Int64.maxValue

/-- A position that counts from the end when it is negative. -/
def fromEnd (length position : Int64) : Int64 :=
  if position < 0 then position + length else position

/-- The bounds of a slice in an array of the given length. -/
def settle (length : Nat) (start stop : Option Int64) (step : Int64) (h : step ≠ 0) :
    SliceBounds :=
  let length := lengthWord length
  if 0 < step then
    { start := clamp 0 length ((start.map (fromEnd length)).getD 0)
      stop := clamp (-1) length ((stop.map (fromEnd length)).getD length)
      step := step
      step_ne_zero := h }
  else
    { start := min (length - 1) ((start.map (fromEnd length)).getD (length - 1))
      stop := clamp (-1) length ((stop.map (fromEnd length)).getD (-1))
      step := step
      step_ne_zero := h }

/-- Whether a position lies before the stop, seen in the direction of the step. -/
def inRange (bounds : SliceBounds) (position : Int64) : Bool :=
  if 0 < bounds.step then position < bounds.stop else bounds.stop < position

/-- How far a position is from the stop. -/
def distance (bounds : SliceBounds) (position : Int64) : Nat :=
  if 0 < bounds.step then (bounds.stop.toInt - position.toInt).toNat
  else (position.toInt - bounds.stop.toInt).toNat

/-- The position one step further on, if it is still a 64-bit word. -/
def following? (bounds : SliceBounds) (position : Int64) : Option Int64 :=
  int64? (position.toInt + bounds.step.toInt)

/-- Each step of a slice comes closer to its end. -/
theorem distance_lt_of_following? {bounds : SliceBounds} {position next : Int64}
    (hr : bounds.inRange position = true) (hn : bounds.following? position = some next) :
    bounds.distance next < bounds.distance position := by
  have hstep : bounds.step.toInt ≠ 0 := fun h =>
    bounds.step_ne_zero (Int64.toInt_inj.1 (by simpa using h))
  have hnext : next.toInt = position.toInt + bounds.step.toInt := toInt_of_int64? hn
  simp only [inRange, distance] at *
  split at hr
  · next hpos =>
    have h₁ := Int64.lt_iff_toInt_lt.1 hpos
    have h₂ := Int64.lt_iff_toInt_lt.1 (of_decide_eq_true hr)
    simp only [hpos, if_true, Int64.toInt_zero] at *
    omega
  · next hneg =>
    have h₁ := mt Int64.lt_iff_toInt_lt.2 hneg
    have h₂ := Int64.lt_iff_toInt_lt.1 (of_decide_eq_true hr)
    simp only [hneg, if_false, Int64.toInt_zero] at *
    omega

set_option linter.unusedVariables false in
/-- The positions of a slice from the given one on. -/
def positionsFrom (bounds : SliceBounds) (position : Int64) : List Int64 :=
  if hr : bounds.inRange position then
    position ::
      match hn : bounds.following? position with
      | some next => bounds.positionsFrom next
      | none => []
  else []
termination_by bounds.distance position
decreasing_by exact distance_lt_of_following? hr hn

/-- The positions of a slice, in its order. -/
def positions (bounds : SliceBounds) : List Int64 :=
  bounds.positionsFrom bounds.start

/-- The elements of an array in a slice, in its order. -/
def elements (bounds : SliceBounds) (values : List Json) : List Json :=
  let values := values.toArray
  bounds.positions.filterMap fun position =>
    if position < 0 then none else values[position.toInt.toNat]?

end SliceBounds

end JsonSelect
