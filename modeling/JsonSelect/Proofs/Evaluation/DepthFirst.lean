import Mathlib.Tactic.Common
import JsonSelect.Proofs.Evaluation.Items

/-!
# Evaluation in depth-first order

An evaluation is computed stage by stage: every selector expands the events that the selectors
before it produce, and nothing is computed before it is asked for.  What it stands for is simpler.
`pathItems` applies a path to a node by recursion: the first selector is applied to the node, and
the rest of the path to each node that comes of it, in order; errors stay where they are.  Inside
filters, `Condition.satisfied` evaluates the path of a condition in the same way.

The stages give exactly these items (`items_pathEvents`), and taking the nodes of a sequence one
by one gives them up to the first error (`answer_eq_getElem?_items`).
-/

namespace JsonSelect

/-! ### Depth-first evaluation -/

/-- What an operator asks of a single node that the path of a condition selects. -/
def Operator.acceptsNode (operator : Operator) (literal : Option Literal) (node : Json) : Bool :=
  match operator, literal with
  | .present, _ => true
  | _, none => false
  | operator, some literal => !node.isContainer && operator.accepts (literal.order? node)

mutual

/-- The items of a selector at a node. -/
def Selector.items (strict : Bool) : Selector → Json → List Item
  | .member name, node => Event.items (memberEvents strict name node)
  | .descent name, node => Event.items (descentEvents name node)
  | .element index, node => Event.items (elementEvents strict index node)
  | .elements indexes, node =>
    indexes.flatMap fun index => Event.items (elementEvents strict (some index) node)
  | .slice start stop step, node => Event.items (sliceEvents strict start stop step node)
  | .filter conditions, node =>
    (node.children.filter fun child => conditionsSatisfied conditions child).map .ok
termination_by structural selector => selector

/-- The items of a path at a node: those of its first selector, from each of which the rest of
the path continues. -/
def pathItems (strict : Bool) : List Selector → Json → List Item
  | [], node => [.ok node]
  | selector :: rest, node =>
    (selector.items strict node).flatMap (continueFrom fun found => pathItems strict rest found)
termination_by structural path => path

/-- Whether a condition is satisfied at a node: before the first error its path selects a node
there that the operator accepts. -/
def Condition.satisfied : Condition → Json → Bool
  | .mk path operator literal, node =>
    (drained (pathItems false path node)).1.any (operator.acceptsNode literal)
termination_by structural condition => condition

/-- Whether all of some conditions are satisfied at a node. -/
def conditionsSatisfied : List Condition → Json → Bool
  | [], _ => true
  | condition :: rest, node => condition.satisfied node && conditionsSatisfied rest node
termination_by structural conditions => conditions

end

@[simp] theorem pathItems_nil (strict : Bool) (node : Json) :
    pathItems strict [] node = [.ok node] := rfl

/-- Each node that the first selector selects is followed by what the others select from it. -/
@[simp] theorem pathItems_cons (strict : Bool) (selector : Selector) (rest : List Selector)
    (node : Json) :
    pathItems strict (selector :: rest) node =
      (selector.items strict node).flatMap (continueFrom (pathItems strict rest)) := rfl

/-! ### The stages give the items of the recursion -/

/-- A condition is judged by the nodes of its path before the first error. -/
theorem judge_snd (operator : Operator) (literal : Option Literal)
    (events : Unit → LazyList Event) :
    (judge operator literal events).2 =
      (drained (Event.items (events ()))).1.any (operator.acceptsNode literal) := by
  have hnone : ∀ nodes : List Json, nodes.any (fun _ => false) = false := by
    intro nodes
    exact List.any_eq_false.mpr fun _ _ => Bool.false_ne_true
  cases operator with
  | present => exact Event.search_eq_any _ _
  | _ =>
    cases literal with
    | none => exact (hnone _).symm
    | some literal => exact Event.search_eq_any _ _

/-- A tested child is found if it passes the test. -/
theorem items_verdictEvents (child : Json) (verdict : Verdict) :
    Event.items (verdictEvents child verdict) = if verdict.2 then [.ok child] else [] := by
  have hnotes : verdict.1.filterMap (Event.item? ∘ Event.note) = [] := by
    simp [Function.comp_def, Event.item?]
  rw [verdictEvents, Event.items_ofList, List.filterMap_append, List.filterMap_map, hnotes]
  cases verdict.2 <;> rfl

mutual

/-- Applying a selector gives its items, whatever notes are made on the way. -/
theorem Selector.items_events (strict : Bool) (selector : Selector) (node : Json) :
    Event.items (selector.events strict node) = selector.items strict node := by
  cases selector with
  | member name => rfl
  | descent name => rfl
  | element index => rfl
  | elements indexes =>
    rw [Selector.events, Event.items_flatMap, LazyList.toList_ofList]
    rfl
  | slice start stop step => rfl
  | filter conditions =>
    have htests : ∀ child, (testConditions conditions child).2 =
        conditionsSatisfied conditions child := testConditions_snd conditions
    rw [Selector.events, Event.items_flatMap, LazyList.toList_ofList]
    simp only [items_verdictEvents, htests]
    exact flatMap_ite_ok _ _
termination_by structural selector

/-- Each stage of a path continues from the items of the stages before it. -/
theorem items_pathEvents (strict : Bool) (path : List Selector) (events : LazyList Event) :
    Event.items (pathEvents strict path events) =
      (Event.items events).flatMap (continueFrom (pathItems strict path)) := by
  cases path with
  | nil => exact (flatMap_continueFrom_ok _).symm
  | cons selector rest =>
    have hstage : ∀ node, Event.items (selector.events strict node) =
        selector.items strict node := selector.items_events strict
    rw [pathEvents, items_pathEvents, Event.items_expand, flatMap_continueFrom_flatMap]
    simp only [hstage]
    rfl
termination_by structural path

/-- A condition is tested as the depth-first order has it. -/
theorem Condition.test_snd (condition : Condition) (child : Json) :
    (condition.test child).2 = condition.satisfied child := by
  cases condition with
  | mk path operator literal =>
    have hitems : Event.items (pathEvents false path (.ofList [.found child])) =
        pathItems false path child := by
      rw [items_pathEvents]
      exact List.append_nil _
    calc ((Condition.mk path operator literal).test child).2
        = (judge operator literal fun _ =>
            pathEvents false path (.ofList [.found child])).2 := rfl
      _ = _ := by rw [judge_snd, hitems]; rfl
termination_by structural condition

/-- So are the conditions of a filter together. -/
theorem testConditions_snd (conditions : List Condition) (child : Json) :
    (testConditions conditions child).2 = conditionsSatisfied conditions child := by
  cases conditions with
  | nil => rfl
  | cons condition rest =>
    have hhere : (condition.test child).2 = condition.satisfied child := condition.test_snd child
    have hrest := testConditions_snd rest child
    rw [conditionsSatisfied, testConditions, ← hhere, ← hrest]
    rcases condition.test child with ⟨notes, _ | _⟩ <;> rfl
termination_by structural conditions

end

/-! ### Taking nodes one by one -/

namespace Event

/-- The next match is the first item, and after an error nothing is left. -/
theorem next?_cases (events : LazyList Event) :
    (next? events = none ∧ items events = []) ∨
      (∃ node rest, next? events = some (.ok node, rest) ∧
        items events = .ok node :: items (rest ())) ∨
      ∃ error more, next? events = some (.error error, fun _ => .nil) ∧
        items events = .error error :: more := by
  induction events with
  | nil => exact Or.inl ⟨rfl, rfl⟩
  | cons event rest ih =>
    cases event with
    | note entry => simpa [next?, item?] using ih ()
    | found node => exact Or.inr (Or.inl ⟨node, rest, rfl, by simp [item?]⟩)
    | failed error => exact Or.inr (Or.inr ⟨error, items (rest ()), rfl, by simp [item?]⟩)

end Event

namespace Nodes

/-- The items that a sequence yields: its matches, and then the error that ends it. -/
def items (nodes : Nodes) : List Item :=
  nodes.drain.1.map .ok ++ (nodes.drain.2.map .error).toList

/-- What a sequence answers when it is asked for the next item again and again, counted from
zero.  When it has nothing to yield, it stays as it is. -/
def answer (nodes : Nodes) : Nat → Option Item
  | 0 => nodes.next?.map Prod.fst
  | k + 1 =>
    match nodes.next? with
    | none => nodes.answer k
    | some (_, rest) => rest.answer k

/-- A sequence yields the items of its events up to the first error. -/
theorem items_eq_upToError (nodes : Nodes) :
    nodes.items = upToError (Event.items (nodes.pending ())) := by
  rw [items, drain, Event.drain_eq_drained, ← upToError_eq]

/-- The next item is the first match that is drained, or the error, after which nothing is left. -/
theorem drain_cases (nodes : Nodes) :
    (nodes.next? = none ∧ nodes.drain = ([], none)) ∨
      (∃ node rest, nodes.next? = some (.ok node, rest) ∧
        nodes.drain = (node :: rest.drain.1, rest.drain.2)) ∨
      ∃ error, nodes.next? = some (.error error, finished) ∧ nodes.drain = ([], some error) := by
  simp only [drain, next?, Event.drain_eq_drained]
  rcases Event.next?_cases (nodes.pending ()) with
    ⟨hnext, hitems⟩ | ⟨node, rest, hnext, hitems⟩ | ⟨error, more, hnext, hitems⟩
  · exact Or.inl ⟨by rw [hnext]; rfl, by rw [hitems]; rfl⟩
  · exact Or.inr (Or.inl ⟨node, ⟨rest⟩, by rw [hnext]; rfl, by rw [hitems]; rfl⟩)
  · exact Or.inr (Or.inr ⟨error, by rw [hnext]; rfl, by rw [hitems]; rfl⟩)

/-- The next item is the first one that a sequence yields. -/
theorem next?_cases (nodes : Nodes) :
    (nodes.next? = none ∧ nodes.items = []) ∨
      ∃ item rest, nodes.next? = some (item, rest) ∧ nodes.items = item :: rest.items := by
  simp only [items]
  rcases nodes.drain_cases with
    ⟨hnext, hdrain⟩ | ⟨node, rest, hnext, hdrain⟩ | ⟨error, hnext, hdrain⟩
  · exact Or.inl ⟨hnext, by rw [hdrain]; rfl⟩
  · exact Or.inr ⟨.ok node, rest, hnext, by rw [hdrain]; rfl⟩
  · exact Or.inr ⟨.error error, finished, hnext, by rw [hdrain]; rfl⟩

/-- One by one the items are yielded, and then nothing any more. -/
theorem answer_eq_getElem?_items (nodes : Nodes) (k : Nat) :
    nodes.answer k = nodes.items[k]? := by
  induction k generalizing nodes with
  | zero =>
    rcases nodes.next?_cases with ⟨hnext, hitems⟩ | ⟨item, rest, hnext, hitems⟩
    · rw [answer, hnext, hitems]
      rfl
    · rw [answer, hnext, hitems]
      rfl
  | succ k ih =>
    rcases nodes.next?_cases with ⟨hnext, hitems⟩ | ⟨item, rest, hnext, hitems⟩
    · rw [answer, hnext, hitems]
      exact (ih nodes).trans (by rw [hitems]; rfl)
    · rw [answer, hnext, hitems, List.getElem?_cons_succ]
      exact ih rest

/-- What is made of all matches and the error that ends them where at most one match is asked for.
From the second match on the error does not matter. -/
def onlyMatch : List Json → Option EvaluationError → Except EvaluationError (Option Json)
  | [], none => .ok none
  | [], some error => .error error
  | [node], none => .ok (some node)
  | [_], some error => .error error
  | _ :: _ :: _, _ => .error .multipleMatches

/-- The first two items of a sequence are enough to find its only match. -/
theorem single_eq_onlyMatch (nodes : Nodes) :
    nodes.single = onlyMatch nodes.drain.1 nodes.drain.2 := by
  unfold single
  rcases nodes.drain_cases with
    ⟨hnext, hdrain⟩ | ⟨node, rest, hnext, hdrain⟩ | ⟨error, hnext, hdrain⟩
  · rw [hnext, hdrain]
    rfl
  · rw [hnext, hdrain]
    dsimp only
    rcases rest.drain_cases with
      ⟨hnext, hdrain⟩ | ⟨second, more, hnext, hdrain⟩ | ⟨error, hnext, hdrain⟩
    · rw [hnext, hdrain]
      rfl
    · rw [hnext, hdrain]
      rfl
    · rw [hnext, hdrain]
      rfl
  · rw [hnext, hdrain]
    rfl

end Nodes

/-! ### Whole evaluations -/

/-- A path in two parts: the second part is applied to what the first part gives. -/
theorem pathItems_append (strict : Bool) (first second : List Selector) (node : Json) :
    pathItems strict (first ++ second) node =
      (pathItems strict first node).flatMap (continueFrom (pathItems strict second)) := by
  induction first generalizing node with
  | nil => exact (List.append_nil _).symm
  | cons selector first ih =>
    rw [List.cons_append, pathItems_cons, pathItems_cons, flatMap_continueFrom_flatMap]
    simp only [← ih]

/-- The items that an evaluation yields are those of the path at the root. -/
theorem items_evaluate (strict : Bool) (path : List Selector) (root : Json) :
    (evaluate strict path root).items = upToError (pathItems strict path root) := by
  have hnotes : (queueNotes path).filterMap (Event.item? ∘ Event.note) = [] := by
    simp [Function.comp_def, Event.item?]
  have hroot : Event.items (pathEvents strict path (.ofList [.found root])) =
      pathItems strict path root := by
    rw [items_pathEvents]
    exact List.append_nil _
  rw [Nodes.items_eq_upToError, evaluate, Event.items_append, Event.items_ofList,
    List.filterMap_map, hnotes, hroot, List.nil_append]

/-- An evaluation drains to the nodes of the path before the first error, and that error. -/
theorem drain_evaluate (strict : Bool) (path : List Selector) (root : Json) :
    (evaluate strict path root).drain = drained (pathItems strict path root) := by
  have h := congrArg drained (items_evaluate strict path root)
  rw [Nodes.items_eq_upToError, drained_upToError, drained_upToError] at h
  rw [Nodes.drain, Event.drain_eq_drained, h]

/-- A path in two parts yields what the second part yields at the matches of the first, up to the
first error. -/
theorem items_evaluate_append (strict : Bool) (first second : List Selector) (root : Json) :
    (evaluate strict (first ++ second) root).items =
      upToError ((evaluate strict first root).items.flatMap
        (continueFrom fun node => (evaluate strict second node).items)) := by
  have hsecond : ∀ node, (evaluate strict second node).items =
      upToError (pathItems strict second node) := items_evaluate strict second
  rw [items_evaluate, pathItems_append, upToError_flatMap_continueFrom, items_evaluate]
  simp only [hsecond]

/-- Taking nodes one by one from an evaluation gives the items of the depth-first order up to the
first error, and nothing after that: matches and at most one error, which is the last.  The stages
give the items of each selector, and a path in two parts is its second part at the matches of its
first. -/
theorem answer_evaluate (strict : Bool) (path : List Selector) (root : Json) :
    (∀ selector node, Event.items (Selector.events strict selector node) =
      selector.items strict node) ∧
    (∀ k, (evaluate strict path root).answer k =
      (upToError (pathItems strict path root))[k]?) ∧
    (∃ found : List Json, ∃ error? : Option EvaluationError,
      ∀ k, (evaluate strict path root).answer k =
        (found.map .ok ++ (error?.map .error).toList)[k]?) ∧
    ∀ first second k, (evaluate strict (first ++ second) root).answer k =
      (upToError ((evaluate strict first root).items.flatMap
        (continueFrom fun node => (evaluate strict second node).items)))[k]? := by
  refine ⟨Selector.items_events strict, fun k => ?_, ?_, fun first second k => ?_⟩
  · rw [Nodes.answer_eq_getElem?_items, items_evaluate]
  · exact ⟨_, _, Nodes.answer_eq_getElem?_items _⟩
  · rw [Nodes.answer_eq_getElem?_items, items_evaluate_append]

end JsonSelect
