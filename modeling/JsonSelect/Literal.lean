import JsonSelect.Numeric.Layout
import JsonSelect.Numeric.ScaledDecimal
import JsonSelect.Text.Quoted
import JsonSelect.Json.Basic

/-!
# Literals

A literal is the scalar that a condition compares nodes with. Whole numbers and floating-point
numbers stay apart the way they were written: `10` is whole, `10.0` and `1e1` are not.

A node and a literal of the same kind have an order; nodes and literals of different kinds, and
containers, have none. Two whole numbers are ordered exactly. Other numbers are ordered as
decimals of bounded size when both have one, and as floating-point numbers otherwise.
-/

namespace JsonSelect

/-- A scalar written in a condition. -/
inductive Literal where
  | null
  | boolean (value : Bool)
  | integer (value : Int64)
  | float (value : Binary64)
  | string (value : String)

/-! ### Text -/

/-- Floating-point numbers in literals: of two equally near decimals the larger one is written,
always positionally, and a whole number gets no point. -/
def literalFloats : FloatFormat where
  tie := .away
  afterWhole := []
  isPositional _ := true

/-- The text of a floating-point number as a literal. -/
def Binary64.literalText : Binary64 → List Char
  | .finite x => literalFloats.text x
  | .infinite negative => signed negative "inf".toList
  | .nan _ => "NaN".toList

namespace Literal

/-- The text of a literal. -/
def text : Literal → List Char
  | null => "null".toList
  | boolean true => "true".toList
  | boolean false => "false".toList
  | integer value => integerText value.toInt
  | float value => value.literalText
  | string value => quoted value.toList

/-- Whether two literals have the same value; the two zeros are the same, and what is not a
number differs from everything. -/
def same : Literal → Literal → Bool
  | null, null => true
  | boolean a, boolean b => a == b
  | integer a, integer b => a == b
  | float a, float b => a.compare? b == some .eq
  | string a, string b => a == b
  | _, _ => false

end Literal

/-! ### Order of numbers -/

/-- A number that takes part in a comparison. -/
inductive Quantity where
  | integer (value : Int64)
  | float (value : Binary64)

namespace Quantity

/-- A number of a document; whole numbers beyond the signed range count as floating point. -/
def ofNumber : Number → Quantity
  | .integer value _ =>
    match int64? value with
    | some n => .integer n
    | none => .float (.ofInt value)
  | .float value => .float (.finite value)

/-- The decimal of bounded size, if there is one. -/
def scaled? : Quantity → Option ScaledDecimal
  | .integer value => some (.ofInt value.toInt)
  | .float value => ScaledDecimal.ofBinary64 value

/-- The nearest floating-point number. -/
def toBinary64 : Quantity → Binary64
  | .integer value => .ofInt value.toInt
  | .float value => value

/-- The order of two numbers. -/
def compare? : Quantity → Quantity → Option Ordering
  | .integer a, .integer b => some (compare a.toInt b.toInt)
  | a, b =>
    match a.scaled?, b.scaled? with
    | some x, some y => some (x.compare y)
    | _, _ => a.toBinary64.compare? b.toBinary64

end Quantity

/-! ### Order of nodes and literals -/

/-- The order of a node relative to a literal, if the two can be compared. -/
def Literal.order? : Literal → Json → Option Ordering
  | .null, .null => some .eq
  | .boolean b, .boolean a => some (compare a b)
  | .string b, .string a => some (compare a b)
  | .integer b, .number a => (Quantity.ofNumber a).compare? (.integer b)
  | .float b, .number a => (Quantity.ofNumber a).compare? (.float b)
  | _, _ => none

end JsonSelect
