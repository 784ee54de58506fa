import JsonSelect.Numeric.Layout
import JsonSelect.Json.Basic

/-!
# Writing JSON

A document is written either compactly, without any blanks, or spread over lines with two more
spaces of indentation for each level. In both forms the members of an object keep their order, a
string escapes only quotes, backslashes and control characters, and a floating-point number is
recognisable as such by its point or its exponent.
-/

namespace JsonSelect

/-! ### Strings -/

/-- A hexadecimal digit, in lower case. -/
def hexDigit (n : Nat) : Char :=
  Nat.digitChar n

/-- How a character is written between quotes. -/
def escapeChar (c : Char) : List Char :=
  if c = '"' then ['\\', '"']
  else if c = '\\' then ['\\', '\\']
  else if c = '\x08' then ['\\', 'b']
  else if c = '\x0c' then ['\\', 'f']
  else if c = '\n' then ['\\', 'n']
  else if c = '\r' then ['\\', 'r']
  else if c = '\t' then ['\\', 't']
  else if c.toNat < 32 then
    ['\\', 'u', '0', '0', hexDigit (c.toNat / 16), hexDigit (c.toNat % 16)]
  else [c]

/-- A string between quotes. -/
def quoteJson (text : String) : String :=
  String.ofList ('"' :: text.toList.flatMap escapeChar ++ ['"'])

/-! ### Numbers -/

/-- Floating-point numbers in JSON: of two equally near decimals the one that ends in an even
digit is written. A number is written positionally, with `.0` if it is whole, when its first digit
has a weight from `10 ^ (-5)` to `10 ^ 15`, and in scientific form otherwise. -/
def jsonFloats : FloatFormat where
  tie := .even
  afterWhole := ['.', '0']
  isPositional point := -5 < point && point ≤ 16

/-- A number as JSON. -/
def Number.text : Number → String
  | .integer value _ => String.ofList (integerText value)
  | .float value => String.ofList (jsonFloats.text value)

/-! ### Documents in compact form -/

/-- Items with a comma between any two. -/
def commaSeparated (items : List String) : String :=
  String.intercalate "," items

mutual

/-- A document without blanks. -/
def Json.compact : Json → String
  | .null => "null"
  | .boolean true => "true"
  | .boolean false => "false"
  | .number value => value.text
  | .string value => quoteJson value
  | .array elements => "[" ++ commaSeparated (Json.compactElements elements) ++ "]"
  | .object members => "\x7b" ++ commaSeparated (Json.compactMembers members) ++ "\x7d"
termination_by structural node => node

/-- The elements of an array without blanks. -/
def Json.compactElements : List Json → List String
  | [] => []
  | value :: rest => value.compact :: Json.compactElements rest
termination_by structural elements => elements

/-- The members of an object without blanks. -/
def Json.compactMembers : List (String × Json) → List String
  | [] => []
  | (name, value) :: rest => (quoteJson name ++ ":" ++ value.compact) :: Json.compactMembers rest
termination_by structural members => members

end

/-! ### Documents over several lines -/

/-- The start of a line at a level of nesting. -/
def newLine (level : Nat) : String :=
  String.ofList ('\n' :: List.replicate (2 * level) ' ')

/-- Items on lines of their own between two brackets; without items nothing stands between. -/
def bracketed (opening closing : String) (level : Nat) (items : List String) : String :=
  if items.isEmpty then opening ++ closing
  else opening ++ newLine (level + 1) ++ String.intercalate ("," ++ newLine (level + 1)) items ++
    newLine level ++ closing

mutual

/-- A document at a level of nesting, one item per line. -/
def Json.prettyAt : Json → (level : Nat) → String
  | .null, _ => "null"
  | .boolean true, _ => "true"
  | .boolean false, _ => "false"
  | .number value, _ => value.text
  | .string value, _ => quoteJson value
  | .array elements, level => bracketed "[" "]" level (Json.prettyElements elements (level + 1))
  | .object members, level =>
    bracketed "\x7b" "\x7d" level (Json.prettyMembers members (level + 1))
termination_by structural node => node

/-- The elements of an array at a level of nesting. -/
def Json.prettyElements : List Json → (level : Nat) → List String
  | [], _ => []
  | value :: rest, level => value.prettyAt level :: Json.prettyElements rest level
termination_by structural elements => elements

/-- The members of an object at a level of nesting. -/
def Json.prettyMembers : List (String × Json) → (level : Nat) → List String
  | [], _ => []
  | (name, value) :: rest, level =>
    (quoteJson name ++ ": " ++ value.prettyAt level) :: Json.prettyMembers rest level
termination_by structural members => members

end

/-- A document over several lines. -/
def Json.pretty (node : Json) : String :=
  node.prettyAt 0

end JsonSelect
