/-!
# Operators of conditions

A condition either asks for the presence of a node or compares nodes with a literal. What an
operator makes of a comparison depends only on the order found, if the two sides have one; sides
without an order are unequal and nothing else.
-/

namespace JsonSelect

/-- What a condition asks of the nodes that its path selects. -/
inductive Operator where
  | present
  | equal
  | unequal
  | less
  | atMost
  | greater
  | atLeast
  deriving DecidableEq

namespace Operator

/-- Whether an operator holds between a node and a literal in the given order. -/
def accepts : Operator → Option Ordering → Bool
  | present, _ => true
  | equal, order => order == some .eq
  | unequal, order => order != some .eq
  | less, order => order == some .lt
  | atMost, order => order == some .lt || order == some .eq
  | greater, order => order == some .gt
  | atLeast, order => order == some .gt || order == some .eq

/-- The text of an operator; asking for presence has none. -/
def symbol : Operator → String
  | present => ""
  | equal => "=="
  | unequal => "!="
  | less => "<"
  | atMost => "<="
  | greater => ">"
  | atLeast => ">="

/-- All operators. -/
def all : List Operator :=
  [present, equal, unequal, less, atMost, greater, atLeast]

theorem mem_all (operator : Operator) : operator ∈ all := by
  cases operator <;> decide

end Operator

end JsonSelect
