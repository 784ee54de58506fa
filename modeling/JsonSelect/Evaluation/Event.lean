import JsonSelect.LazyList
import JsonSelect.Selector.Basic
import JsonSelect.Evaluation.Error

/-!
# Events

An evaluation is a sequence of events: nodes that are found, at most one error that matters, and
in between notes on what is being done. The notes are what a log shows; they have no influence on
the nodes.

Events come in lazy lists. Whoever consumes them goes up to the first error at most, and nothing
is computed that lies behind the point up to which they are consumed.
-/

namespace JsonSelect

/-- A note for the log. -/
inductive Note where
  /-- An expression has been compiled into that many selectors. -/
  | compiled (expression : String) (selectors : Nat)
  /-- A selector has been added to an evaluation. -/
  | queued (kind : Selector.Kind)
  /-- A selector found nothing, and that is an error. -/
  | noMatch (error : EvaluationError)
  deriving DecidableEq

/-- A note as a line of the log. -/
def Note.line : Note → String
  | compiled expression selectors =>
    "DEBUG compiled path '" ++ expression ++ "' into " ++ toString selectors ++ " filter(s)"
  | queued kind => "TRACE queueing " ++ kind.name ++ " filter"
  | noMatch error => "TRACE no match: " ++ error.message

/-- One event of an evaluation. -/
inductive Event where
  | note (note : Note)
  | found (node : Json)
  | failed (error : EvaluationError)

namespace Event

/-- The note, if the event is one. -/
def note? : Event → Option Note
  | note entry => some entry
  | _ => none

/-- The node, if one is found. -/
def node? : Event → Option Json
  | found node => some node
  | _ => none

/-- The error, if the event is one. -/
def error? : Event → Option EvaluationError
  | failed error => some error
  | _ => none

/-- Whether the event is an error. -/
def isFailure (event : Event) : Bool :=
  event.error?.isSome

/-- Replaces every node that is found by the events that follow from it. -/
def expand (next : Json → LazyList Event) (events : LazyList Event) : LazyList Event :=
  events.flatMap fun event =>
    match event with
    | found node => next node
    | other => .ofList [other]

/-! ### Consuming events -/

/-- The events that `keep` does not turn away, up to the first error. -/
def upToFailure (keep : Event → Bool) (events : LazyList Event) : List Event :=
  (events.filter keep).upTo isFailure

/-- The nodes that are found before the first error, and that error. -/
def drain (events : LazyList Event) : List Json × Option EvaluationError :=
  let yielded := upToFailure (fun event => event.note?.isNone) events
  (yielded.filterMap node?, yielded.findSome? error?)

/-- The notes that are made before the first error. -/
def notes (events : LazyList Event) : List Note :=
  (upToFailure (fun event => event.node?.isNone) events).filterMap note?

/-- The next node or error, and the events left after it; none are left after an error. -/
def next? : LazyList Event → Option (Except EvaluationError Json × (Unit → LazyList Event))
  | .nil => none
  | .cons (note _) rest => next? (rest ())
  | .cons (found node) rest => some (.ok node, rest)
  | .cons (failed error) _ => some (.error error, fun _ => .nil)

/-- Looks for an acceptable node up to the first error: the notes that are made until the answer
is known, and whether there is such a node. Other nodes are passed over, so that the first event
that is not a note decides. -/
def search (accepts : Json → Bool) (events : LazyList Event) : List Note × Bool :=
  let seen := (events.filter fun event => event.node?.all accepts).upTo
    fun event => event.note?.isNone
  (seen.filterMap note?, seen.any fun event => event.node?.isSome)

end Event

end JsonSelect
