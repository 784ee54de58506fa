/-!
# Errors in path expressions

An expression that does not follow the grammar is rejected with a cause and the position, counted
in characters, at which it was noticed.
-/

namespace JsonSelect

/-- What is wrong with a path expression. -/
inductive Cause where
  | unexpectedInPath (c : Char)
  | unexpectedInIndexer (c : Char)
  | unexpectedInFilter (c : Char)
  | unexpectedAfterIndexer (c : Char)
  | openIndexer
  | openFilter
  | indexExpected
  | invalidIndex (text : String)
  | emptyIndexer
  | unknownEscape (c : Char)
  | invalidOperator
  | invalidLiteral
  | zeroStep
  | tooDeep (limit : Nat)
  deriving DecidableEq

/-- The text of a cause. -/
def Cause.message : Cause → String
  | unexpectedInPath c => "Unexpected character while parsing path: '" ++ c.toString ++ "'"
  | unexpectedInIndexer c =>
    "Unexpected character while parsing path indexer: '" ++ c.toString ++ "'"
  | unexpectedInFilter c =>
    "Unexpected character while parsing path query: '" ++ c.toString ++ "'"
  | unexpectedAfterIndexer c =>
    "Unexpected character following indexer: '" ++ c.toString ++ "'"
  | openIndexer => "Path ended with open indexer"
  | openFilter => "Path ended with open query"
  | indexExpected => "Array index expected"
  | invalidIndex text => "Invalid array index '" ++ text ++ "'"
  | emptyIndexer => "Empty path indexer"
  | unknownEscape c => "Unknown escape character: \\" ++ c.toString
  | invalidOperator => "Could not read query operator"
  | invalidLiteral => "Could not read query value"
  | zeroStep => "Slice step cannot be zero"
  | tooDeep limit => "Query nesting exceeds maximum depth of " ++ toString limit

/-- A cause with the position at which it was noticed. -/
structure PathError where
  cause : Cause
  position : Nat
  deriving DecidableEq

/-- The text of an error. -/
def PathError.message (error : PathError) : String :=
  error.cause.message ++ " at position " ++ toString error.position

end JsonSelect
