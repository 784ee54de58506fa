import JsonSelect.Json.Walk
import JsonSelect.Evaluation.Event
import JsonSelect.Evaluation.Slice

/-!
# Applying paths

A selector applied to a node gives events. A path is applied by letting each of its selectors in
turn expand the nodes found so far, beginning with the node at which the path starts; errors and
notes stay where they are. Events are consumed up to the first error, and they are computed only
as far as they are consumed.

In a *strict* evaluation a member, an index or a slice that selects nothing is an error. Descents
and filters never fail for lack of matches.

A filter tests each child with its conditions, in order and until one does not hold. The path of
a condition is applied without strictness. A condition on presence holds once a node is found, a
comparison once a scalar is found that compares as it should with the literal. An error ends the
search.
-/

namespace JsonSelect

/-! ### Members, elements and slices -/

/-- The events of a selector that finds nothing. -/
def noMatch (strict : Bool) (error : EvaluationError) : LazyList Event :=
  .ofList (if strict then [.note (.noMatch error), .failed error] else [])

/-- The events of a selector that finds the given nodes. -/
def foundAll (nodes : List Json) : LazyList Event :=
  .ofList (nodes.map .found)

/-- The member of that name, or every child. -/
def memberEvents (strict : Bool) (name : Option String) (node : Json) : LazyList Event :=
  match node, name with
  | .object members, some name =>
    match Json.member? members name with
    | some value => foundAll [value]
    | none => noMatch strict (.missingMember name)
  | .object members, none => foundAll (Json.object members).children
  | .array elements, none => foundAll elements
  | node, name => noMatch strict (.memberNotValid name node.kind)

/-- Every member of that name below the node, or the node and everything below it. -/
def descentEvents (name : Option String) (node : Json) : LazyList Event :=
  match name with
  | none => .cons (.found node) fun _ => node.descendants.map fun entry => .found entry.2
  | some name =>
    (node.descendants.filter fun entry => entry.1 == some name).map fun entry => .found entry.2

/-- The element at that index, or every element. -/
def elementEvents (strict : Bool) (index : Option Int64) (node : Json) : LazyList Event :=
  match node, index with
  | .array elements, none => foundAll elements
  | .array elements, some index =>
    match Json.element? elements index with
    | some value => foundAll [value]
    | none => noMatch strict (.indexOutOfBounds index)
  | node, index => noMatch strict (.indexNotValid index node.kind)

/-- The elements of a slice. A step of zero is an error in every evaluation. -/
def sliceEvents (strict : Bool) (start stop step : Option Int64) (node : Json) :
    LazyList Event :=
  match node with
  | .array elements =>
    let step := step.getD 1
    if h : step = 0 then .ofList [.failed .zeroStep]
    else
      let bounds := SliceBounds.settle elements.length start stop step h
      if bounds.inRange bounds.start then foundAll (bounds.elements elements)
      else noMatch strict (.emptySlice bounds.start bounds.stop)
  | node => noMatch strict (.sliceNotValid node.kind)

/-! ### Conditions -/

/-- The outcome of a test: the notes made, and whether it holds. -/
abbrev Verdict := List Note × Bool

/-- What an operator makes of the events that a path gives at the child under test. Without a
literal to compare with, none of them is asked for. -/
def judge (operator : Operator) (literal : Option Literal) (events : Unit → LazyList Event) :
    Verdict :=
  match operator, literal with
  | .present, _ => Event.search (fun _ => true) (events ())
  | _, none => ([], false)
  | operator, some literal =>
    Event.search (fun node => !node.isContainer && operator.accepts (literal.order? node))
      (events ())

/-- The events of a test: the notes made, and the child if the test holds. -/
def verdictEvents (child : Json) (verdict : Verdict) : LazyList Event :=
  .ofList (verdict.1.map .note ++ if verdict.2 then [.found child] else [])

/-- The notes on the selectors of a path, made when its evaluation begins. -/
def queueNotes (path : List Selector) : List Note :=
  path.map fun selector => .queued selector.kind

mutual

/-- The events of a selector at a node. -/
def Selector.events (strict : Bool) : Selector → Json → LazyList Event
  | .member name, node => memberEvents strict name node
  | .descent name, node => descentEvents name node
  | .element index, node => elementEvents strict index node
  | .elements indexes, node =>
    (LazyList.ofList indexes).flatMap fun index => elementEvents strict (some index) node
  | .slice start stop step, node => sliceEvents strict start stop step node
  | .filter conditions, node =>
    (LazyList.ofList node.children).flatMap fun child =>
      verdictEvents child (testConditions conditions child)
termination_by structural selector => selector

/-- The events of a path, given the events before it. -/
def pathEvents (strict : Bool) : List Selector → LazyList Event → LazyList Event
  | [], events => events
  | selector :: rest, events =>
    pathEvents strict rest (Event.expand (fun node => selector.events strict node) events)
termination_by structural path => path

/-- Tests a condition at a child. -/
def Condition.test : Condition → Json → Verdict
  | .mk path operator literal, child =>
    let (notes, holds) := judge operator literal fun _ =>
      pathEvents false path (.ofList [.found child])
    (queueNotes path ++ notes, holds)
termination_by structural condition => condition

/-- Tests conditions at a child, until one of them does not hold. -/
def testConditions : List Condition → Json → Verdict
  | [], _ => ([], true)
  | condition :: rest, child =>
    let (notes, holds) := condition.test child
    if holds then
      let (more, holds) := testConditions rest child
      (notes ++ more, holds)
    else (notes, false)
termination_by structural conditions => conditions

end

/-- Whether a condition holds at a node. -/
def Condition.holds (condition : Condition) (node : Json) : Bool :=
  (condition.test node).2

end JsonSelect
