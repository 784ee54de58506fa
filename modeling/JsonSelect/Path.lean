import JsonSelect.Grammar.Path
import JsonSelect.Evaluation.Nodes

/-!
# Compiled paths

An expression is compiled once and can then be applied to any number of documents. A compiled
path keeps the expression it came from.
-/

namespace JsonSelect

/-- A compiled expression. -/
structure Path where
  expression : String
  selectors : List Selector

namespace Path

/-- Compiles an expression in which filters are nested at most `limit` deep. -/
def compileWithin (limit : Nat) (expression : String) : Except PathError Path :=
  (JsonSelect.compileWithin limit expression).map fun selectors => ⟨expression, selectors⟩

/-- Compiles an expression. -/
def compile (expression : String) : Except PathError Path :=
  compileWithin defaultDepthLimit expression

/-- Whether two paths have the same expression and the same selectors. -/
def same (a b : Path) : Bool :=
  a.expression == b.expression && samePath a.selectors b.selectors

/-- The nodes that the path selects in a document. -/
def evaluate (path : Path) (strict : Bool) (root : Json) : Nodes :=
  JsonSelect.evaluate strict path.selectors root

/-- All matches; one that is missing is no error. -/
def selectAll (path : Path) (root : Json) : Except EvaluationError (List Json) :=
  (path.evaluate false root).toList

/-- The only match, if there is one. -/
def selectOne (path : Path) (strict : Bool) (root : Json) : Except EvaluationError (Option Json) :=
  (path.evaluate strict root).single

/-- Whether an expression is nothing at all, or a `$` with only spaces around it. -/
def isBareRoot (expression : String) : Bool :=
  expression.isEmpty ||
    match skipSpaces expression.toList with
    | '$' :: rest => (skipSpaces rest).isEmpty
    | _ => false

/-- The notes made while the expression was compiled. Nothing is noted for an expression that is
settled before its first segment. -/
def notes (path : Path) : List Note :=
  if isBareRoot path.expression then []
  else [.compiled path.expression path.selectors.length]

end Path

/-! ### Selection in one step -/

/-- Why selecting with an expression failed. -/
inductive SelectionError where
  | path (error : PathError)
  | evaluation (error : EvaluationError)

/-- The only node that an expression selects in a document, if there is one. -/
def Json.selectToken (root : Json) (expression : String) :
    Except SelectionError (Option Json) :=
  ((Path.compile expression).mapError .path).bind fun path =>
    (path.selectOne false root).mapError .evaluation

/-- All nodes that an expression selects in a document. -/
def Json.selectTokens (root : Json) (expression : String) :
    Except SelectionError (List Json) :=
  ((Path.compile expression).mapError .path).bind fun path =>
    (path.selectAll root).mapError .evaluation

end JsonSelect
