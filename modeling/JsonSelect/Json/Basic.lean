import JsonSelect.Numeric.Binary64

/-!
# JSON documents

A document is a tree. Members of an object keep the order in which they were written, and the
elements of an array are numbered from its start; a negative index counts from its end.

A number is either a whole number in the range from `-2 ^ 63` to `2 ^ 64 - 1`, kept exactly, or a
finite floating-point number.
-/

namespace JsonSelect

/-- A JSON number. -/
inductive Number where
  | integer (value : Int) (range : -0x8000000000000000 ≤ value ∧ value < 0x10000000000000000)
  | float (value : FiniteFloat)
  deriving DecidableEq

/-- A JSON document, or any node of one. -/
inductive Json where
  | null
  | boolean (value : Bool)
  | number (value : Number)
  | string (value : String)
  | array (elements : List Json)
  | object (members : List (String × Json))

/-- The kind of a node. -/
inductive Json.Kind where
  | null
  | boolean
  | number
  | string
  | array
  | object
  deriving DecidableEq

/-- The word for a kind of node. -/
def Json.Kind.name : Json.Kind → String
  | .null => "null"
  | .boolean => "boolean"
  | .number => "number"
  | .string => "string"
  | .array => "array"
  | .object => "object"

/-- A node below another one, with its name if it is a member of an object. -/
abbrev Entry := Option String × Json

namespace Json

/-- The kind of a node. -/
def kind : Json → Kind
  | null => .null
  | boolean _ => .boolean
  | number _ => .number
  | string _ => .string
  | array _ => .array
  | object _ => .object

/-- Whether a node can have children. -/
def isContainer : Json → Bool
  | array _ => true
  | object _ => true
  | _ => false

/-! ### Children -/

/-- The children of a node, each with its name if it has one. -/
def entries : Json → List Entry
  | array elements => elements.map fun value => (none, value)
  | object members => members.map fun (name, value) => (some name, value)
  | _ => []

/-- The children of a node. -/
def children : Json → List Json
  | array elements => elements
  | object members => members.map Prod.snd
  | _ => []

/-- The member of that name, the first one if there are several. -/
def member? (members : List (String × Json)) (name : String) : Option Json :=
  members.lookup name

/-- The children of a node are the values of its entries. -/
theorem children_eq_map_entries (node : Json) : node.children = node.entries.map Prod.snd := by
  cases node <;> simp [children, entries, Function.comp_def]

/-! ### Elements by index -/

/-- The place of an element in an array of the given length; negative indexes count from the
end, `-1` being the last element. -/
def resolveIndex (length : Nat) (index : Int64) : Option Nat :=
  let i := index.toInt
  if i < 0 then
    if i.natAbs ≤ length then some (length - i.natAbs) else none
  else
    if i.toNat < length then some i.toNat else none

/-- The element of an array at an index. -/
def element? (elements : List Json) (index : Int64) : Option Json :=
  (resolveIndex elements.length index).bind fun i => elements[i]?

end Json

end JsonSelect
