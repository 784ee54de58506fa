import JsonSelect.Literal
import JsonSelect.Selector.Operator

/-!
# Selectors

A path is a list of selectors, applied from left to right; each one turns a node into the nodes
that it selects there. A filter holds conditions, and a condition holds a path of its own, which
starts at the child under test.

A condition of a written path has a literal exactly when its operator is not `present`. The type
does not ask for that, so that conditions can also be put together freely.
-/

namespace JsonSelect

mutual

/-- One step of a path. -/
inductive Selector where
  /-- The member of that name, or every child. -/
  | member (name : Option String)
  /-- Every member of that name below the node, or the node and everything below it. -/
  | descent (name : Option String)
  /-- The element at that index, or every element. -/
  | element (index : Option Int64)
  /-- The elements at several indexes, in their order. -/
  | elements (indexes : List Int64)
  /-- The elements of a slice. -/
  | slice (start stop step : Option Int64)
  /-- The children for which all conditions hold. -/
  | filter (conditions : List Condition)

/-- A condition on a child: what its operator asks of the nodes that its path selects there. -/
inductive Condition where
  | mk (path : List Selector) (operator : Operator) (literal : Option Literal)

end

namespace Condition

/-- The path from the child under test. -/
def path : Condition → List Selector
  | mk path _ _ => path

/-- What is asked of the nodes. -/
def operator : Condition → Operator
  | mk _ operator _ => operator

/-- What the nodes are compared with. -/
def literal : Condition → Option Literal
  | mk _ _ literal => literal

/-- The condition that a path selects anything at all. -/
def presence (path : List Selector) : Condition :=
  mk path .present none

/-- The condition that some scalar on a path compares with a literal. -/
def comparison (path : List Selector) (operator : Operator) (literal : Literal) : Condition :=
  mk path operator (some literal)

end Condition

namespace Selector

/-- The selector for a bare name, where the name `*` stands for every name. -/
def named (descending : Bool) (name : String) : Selector :=
  let name? := if name = "*" then none else some name
  if descending then descent name? else member name?

/-- The kind of a selector. -/
inductive Kind where
  | member
  | descent
  | element
  | elements
  | slice
  | filter
  deriving DecidableEq

/-- The kind of a selector. -/
def kind : Selector → Kind
  | member _ => .member
  | descent _ => .descent
  | element _ => .element
  | elements _ => .elements
  | slice _ _ _ => .slice
  | filter _ => .filter

/-- The words for a kind of selector. -/
def Kind.name : Kind → String
  | member => "field"
  | descent => "scan"
  | element => "array index"
  | elements => "array multi-index"
  | slice => "array slice"
  | filter => "query"

end Selector

/-! ### Equality of values -/

mutual

/-- Whether two selectors are the same up to the values of their literals. -/
def Selector.same : Selector → Selector → Bool
  | .member a, .member b => a == b
  | .descent a, .descent b => a == b
  | .element a, .element b => a == b
  | .elements a, .elements b => a == b
  | .slice a b c, .slice a' b' c' => a == a' && b == b' && c == c'
  | .filter a, .filter b => sameConditions a b
  | _, _ => false
termination_by structural s => s

/-- Whether two paths are the same, selector by selector. -/
def samePath : List Selector → List Selector → Bool
  | [], [] => true
  | a :: as, b :: bs => a.same b && samePath as bs
  | _, _ => false
termination_by structural path => path

/-- Whether two conditions are the same in path, operator and literal. -/
def Condition.same : Condition → Condition → Bool
  | .mk p o l, .mk p' o' l' =>
    samePath p p' && o == o' &&
      match l, l' with
      | none, none => true
      | some a, some b => a.same b
      | _, _ => false
termination_by structural c => c

/-- Whether two lists of conditions are the same, condition by condition. -/
def sameConditions : List Condition → List Condition → Bool
  | [], [] => true
  | a :: as, b :: bs => a.same b && sameConditions as bs
  | _, _ => false
termination_by structural conditions => conditions

end

end JsonSelect
