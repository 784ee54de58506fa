import JsonSelect.Numeric.Integer
import JsonSelect.Json.Basic

/-!
# Errors of evaluation

Most errors say that something is not there: a member, an element, or anything of a slice. They
arise only where a missing match was asked to be an error. The other two are a step of zero, which
no written path can hold, and several matches where at most one was asked for.
-/

namespace JsonSelect

/-- What can go wrong when a path is applied to a document. -/
inductive EvaluationError where
  /-- The object has no such member. -/
  | missingMember (name : String)
  /-- A member, or every child if no name is given, was asked of a node that has none. -/
  | memberNotValid (name : Option String) (kind : Json.Kind)
  /-- The array is too short for the index. -/
  | indexOutOfBounds (index : Int64)
  /-- An element, or every element if no index is given, was asked of a node that is no array. -/
  | indexNotValid (index : Option Int64) (kind : Json.Kind)
  /-- No element of the array lies in the slice. -/
  | emptySlice (start stop : Int64)
  /-- A slice was asked of a node that is no array. -/
  | sliceNotValid (kind : Json.Kind)
  /-- The slice does not move. -/
  | zeroStep
  /-- More than one node matched. -/
  | multipleMatches
  deriving DecidableEq

namespace EvaluationError

/-- The text of an error. -/
def message : EvaluationError → String
  | missingMember name => "Property '" ++ name ++ "' does not exist on object"
  | memberNotValid name kind =>
    "Property '" ++ name.getD "*" ++ "' not valid on " ++ kind.name
  | indexOutOfBounds index =>
    "Index " ++ String.ofList (indexText index) ++ " outside the bounds of array"
  | indexNotValid index kind =>
    "Index " ++ String.ofList ((index.map indexText).getD ['*']) ++ " not valid on " ++ kind.name
  | emptySlice start stop =>
    "Array slice of " ++ String.ofList (indexText start) ++ " to " ++
      String.ofList (indexText stop) ++ " returned no results"
  | sliceNotValid kind => "Array slice is not valid on " ++ kind.name
  | zeroStep => "Slice step cannot be zero"
  | multipleMatches => "Path returned multiple tokens"

/-- Whether an error only says that there is no match. -/
def isNoMatch : EvaluationError → Bool
  | zeroStep => false
  | multipleMatches => false
  | _ => true

end EvaluationError

end JsonSelect
