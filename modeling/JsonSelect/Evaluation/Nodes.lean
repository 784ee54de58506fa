import JsonSelect.Evaluation.Evaluate

/-!
# Sequences of nodes

Evaluating a path gives a sequence of nodes that is taken one by one. An error ends the sequence:
it is the last thing that it yields. Nothing is evaluated before it is asked for.
-/

namespace JsonSelect

/-- A sequence of matches in progress: a way to compute the events that have not been consumed
yet. -/
structure Nodes where
  pending : Unit → LazyList Event

namespace Nodes

/-- The sequence at its end. -/
def finished : Nodes :=
  ⟨fun _ => .nil⟩

/-- The next match or error, and the sequence after it. -/
def next? (nodes : Nodes) : Option (Except EvaluationError Json × Nodes) :=
  (Event.next? (nodes.pending ())).map fun (item, rest) => (item, ⟨rest⟩)

/-- The matches that are left and the error that ends them, if there is one. -/
def drain (nodes : Nodes) : List Json × Option EvaluationError :=
  Event.drain (nodes.pending ())

/-- The notes made while the sequence is consumed to its end. -/
def notes (nodes : Nodes) : List Note :=
  Event.notes (nodes.pending ())

/-- All matches, or the error that ends them. -/
def toList (nodes : Nodes) : Except EvaluationError (List Json) :=
  match nodes.drain with
  | (found, none) => .ok found
  | (_, some error) => .error error

/-- The only match, if there is any; more than one is an error. -/
def single (nodes : Nodes) : Except EvaluationError (Option Json) :=
  match nodes.next? with
  | none => .ok none
  | some (.error error, _) => .error error
  | some (.ok node, rest) =>
    match rest.next? with
    | none => .ok (some node)
    | some (.error error, _) => .error error
    | some (.ok _, _) => .error .multipleMatches

end Nodes

/-- The nodes that a path selects in a document. -/
def evaluate (strict : Bool) (path : List Selector) (root : Json) : Nodes :=
  ⟨fun _ => (LazyList.ofList ((queueNotes path).map .note)).append fun _ =>
    pathEvents strict path (.ofList [.found root])⟩

end JsonSelect
