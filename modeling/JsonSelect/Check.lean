import JsonSelect.Json.Reader
import JsonSelect.Path

/-!
# The check command

A check compiles an expression and, unless only the expression is of interest, applies it to a
document and gives all matches as one array. It is all or nothing: whatever goes wrong first is
the whole answer, even after matches have been found.
-/

namespace JsonSelect

/-- What a check is about. -/
structure CheckRequest where
  /-- The expression. -/
  expression : String
  /-- The text of the document, if there is one. -/
  input : Option String
  /-- Whether a member, an index or a slice that selects nothing is an error. -/
  strict : Bool
  /-- Whether only the expression is of interest. -/
  expressionOnly : Bool

/-- What a check finds. -/
inductive CheckResult where
  /-- The expression is in order and has that many selectors. -/
  | valid (selectors : Nat)
  /-- The matches, as one array. -/
  | matched (found : Json)

/-- Why a command fails. -/
inductive CommandError where
  | path (error : PathError)
  | evaluation (error : EvaluationError)
  | invalidDocument
  | noInput
  | unknownCategory (name : String)

/-- The text of the error of a command. -/
def CommandError.message : CommandError → String
  | path error => "Parse error: " ++ error.message
  | evaluation error => "Evaluation error: " ++ error.message
  | invalidDocument => "Invalid JSON"
  | noInput => "No input provided. Use --input or pipe JSON to stdin."
  | unknownCategory name =>
    "Unknown category: '" ++ name ++ "'\nRun 'jpath docs' to see available categories."

/-- Applies a compiled path to the text of a document. -/
def checkInput (path : Path) (strict : Bool) : Option String → Except CommandError CheckResult
  | none => .error .noInput
  | some text =>
    match Json.read? text with
    | none => .error .invalidDocument
    | some document =>
      match (path.evaluate strict document).toList with
      | .error error => .error (.evaluation error)
      | .ok found => .ok (.matched (.array found))

/-- Carries out a check. -/
def check (request : CheckRequest) : Except CommandError CheckResult :=
  match Path.compile request.expression with
  | .error error => .error (.path error)
  | .ok path =>
    if request.expressionOnly then .ok (.valid path.selectors.length)
    else checkInput path request.strict request.input

end JsonSelect
