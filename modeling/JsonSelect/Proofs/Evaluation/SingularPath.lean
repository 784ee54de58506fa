import Mathlib.Tactic.Common
import JsonSelect.Path
import JsonSelect.Proofs.Evaluation.Strictness

/-!
# Singular paths

A path whose selectors all ask for the member of a name or for the element at an index leads to one
node at most.  Following it from node to node ends there, or with the error of the first selector
that finds nothing (`followPath`).  A strict evaluation yields exactly what following the path ends
with, and a lenient one leaves the error out.  One function says both (`yielded`), so that one
induction on the path does for both policies (`pathItems_toSelector`).
-/

namespace JsonSelect

/-! ### Following a path -/

/-- A selector of one node at most: the member of a name, or the element at an index. -/
inductive SingularSelector where
  | member (name : String)
  | element (index : Int64)

namespace SingularSelector

/-- The same as a selector of any path. -/
def toSelector : SingularSelector → Selector
  | member name => .member (some name)
  | element index => .element (some index)

/-- The node that is selected at another one, or why there is none. -/
def follow : SingularSelector → Json → Item
  | member name, .object members =>
    (Json.member? members name).elim (.error (.missingMember name)) .ok
  | member name, node => .error (.memberNotValid (some name) node.kind)
  | element index, .array elements =>
    (Json.element? elements index).elim (.error (.indexOutOfBounds index)) .ok
  | element index, node => .error (.indexNotValid (some index) node.kind)

end SingularSelector

/-- The node at the end of a singular path, or the error of the first selector that finds none. -/
def followPath : List SingularSelector → Json → Item
  | [], node => .ok node
  | selector :: rest, node => (selector.follow node).bind (followPath rest)

/-- A path in two parts is followed one part after the other. -/
theorem followPath_append (first second : List SingularSelector) (node : Json) :
    followPath (first ++ second) node = (followPath first node).bind (followPath second) := by
  induction first generalizing node with
  | nil => rfl
  | cons selector rest ih =>
    rw [List.cons_append, followPath, followPath]
    cases selector.follow node with
    | ok found => exact ih found
    | error error => rfl

/-- A path that cannot be followed to its end has a first selector that finds nothing, and the error
is that selector's. -/
theorem exists_of_followPath_eq_error {path : List SingularSelector} {node : Json}
    {error : EvaluationError} (h : followPath path node = .error error) :
    ∃ before selector after found, path = before ++ selector :: after ∧
      followPath before node = .ok found ∧ selector.follow found = .error error := by
  induction path generalizing node with
  | nil => contradiction
  | cons selector rest ih =>
    rw [followPath] at h
    cases hfollow : selector.follow node with
    | error other =>
      rw [hfollow] at h
      obtain rfl : other = error := Except.error.inj h
      exact ⟨[], selector, rest, node, rfl, rfl, hfollow⟩
    | ok child =>
      rw [hfollow] at h
      obtain ⟨before, failing, after, found, rfl, hbefore, hfailing⟩ := ih h
      refine ⟨selector :: before, failing, after, found, rfl, ?_, hfailing⟩
      rw [followPath, hfollow]
      exact hbefore

/-! ### Evaluating a path -/

/-- What is yielded of a node, or of an error for lack of a match: the error only if strictness asks
for it. -/
def yielded (strict : Bool) : Item → List Item
  | .ok node => [.ok node]
  | .error error => if strict then [.error error] else []

/-- A singular selector yields the node that it leads to. -/
theorem SingularSelector.items_toSelector (strict : Bool) (selector : SingularSelector)
    (node : Json) :
    selector.toSelector.items strict node = yielded strict (selector.follow node) := by
  cases selector with
  | member name =>
    change Event.items (memberEvents strict (some name) node) = _
    cases node with
    | object members =>
      rw [memberEvents, follow]
      cases Json.member? members name <;> cases strict <;> rfl
    | _ => cases strict <;> rfl
  | element index =>
    change Event.items (elementEvents strict (some index) node) = _
    cases node with
    | array elements =>
      rw [elementEvents, follow]
      cases Json.element? elements index <;> cases strict <;> rfl
    | _ => cases strict <;> rfl

/-- Its error is for lack of a match. -/
theorem SingularSelector.isNoMatch_of_follow {selector : SingularSelector} {node : Json}
    {error : EvaluationError} (h : selector.follow node = .error error) :
    error.isNoMatch = true := by
  have hmem : .error error ∈ selector.toSelector.items true node := by
    rw [items_toSelector, h]
    exact List.mem_singleton_self _
  cases selector with
  | member name => exact ((matchOutcome_memberEvents _ node).isNoMatch_of_mem hmem).2
  | element index => exact ((matchOutcome_elementEvents _ node).isNoMatch_of_mem hmem).2

/-- Following a path fails only where there is no match. -/
theorem isNoMatch_of_followPath {path : List SingularSelector} {node : Json}
    {error : EvaluationError} (h : followPath path node = .error error) :
    error.isNoMatch = true := by
  obtain ⟨-, selector, -, found, -, -, hselector⟩ := exists_of_followPath_eq_error h
  exact selector.isNoMatch_of_follow hselector

/-- A singular path yields the node at its end. -/
theorem pathItems_toSelector (strict : Bool) (path : List SingularSelector) (node : Json) :
    pathItems strict (path.map SingularSelector.toSelector) node =
      yielded strict (followPath path node) := by
  induction path generalizing node with
  | nil => rfl
  | cons selector rest ih =>
    have hrest : pathItems strict (rest.map SingularSelector.toSelector) =
        fun found => yielded strict (followPath rest found) := funext ih
    rw [List.map_cons, pathItems_cons, selector.items_toSelector, followPath, hrest]
    cases selector.follow node with
    | ok found => exact List.append_nil _
    | error error => cases strict <;> rfl

section

variable {path : List SingularSelector} {root : Json}

/-- Where a path can be followed to its end, both evaluations find the node there. -/
theorem drain_evaluate_of_followPath_eq_ok {node : Json} (h : followPath path root = .ok node)
    (strict : Bool) :
    (evaluate strict (path.map SingularSelector.toSelector) root).drain = ([node], none) := by
  rw [drain_evaluate, pathItems_toSelector, h]
  rfl

/-- Where it cannot, nothing is found, which is an error in a strict evaluation. -/
theorem drain_evaluate_of_followPath_eq_error {error : EvaluationError}
    (h : followPath path root = .error error) (strict : Bool) :
    (evaluate strict (path.map SingularSelector.toSelector) root).drain =
      ([], if strict then some error else none) := by
  rw [drain_evaluate, pathItems_toSelector, h]
  cases strict <;> rfl

/-- Nothing is found in a lenient evaluation only if the path cannot be followed. -/
theorem exists_followPath_eq_error_of_drain
    (h : (evaluate false (path.map SingularSelector.toSelector) root).drain = ([], none)) :
    ∃ error, followPath path root = .error error := by
  cases hfollow : followPath path root with
  | ok node =>
    rw [drain_evaluate_of_followPath_eq_ok hfollow] at h
    cases h
  | error error => exact ⟨error, rfl⟩

/-- Then there is a first selector that finds nothing, where the selectors before it lead to, and
its error ends the strict evaluation. -/
theorem exists_selector_of_followPath_eq_error {error : EvaluationError}
    (h : followPath path root = .error error) :
    ∃ before selector after node, path = before ++ selector :: after ∧
      (evaluate false (before.map SingularSelector.toSelector) root).drain = ([node], none) ∧
      (evaluate false [selector.toSelector] node).drain = ([], none) ∧
      (evaluate true [selector.toSelector] node).drain = ([], some error) ∧
      error.isNoMatch = true ∧
      (evaluate true (path.map SingularSelector.toSelector) root).drain = ([], some error) := by
  obtain ⟨before, selector, after, node, hpath, hbefore, hselector⟩ :=
    exists_of_followPath_eq_error h
  have hsingle : followPath [selector] node = .error error := by
    rw [followPath, hselector]
    rfl
  exact ⟨before, selector, after, node, hpath, drain_evaluate_of_followPath_eq_ok hbefore false,
    drain_evaluate_of_followPath_eq_error hsingle false,
    drain_evaluate_of_followPath_eq_error hsingle true, isNoMatch_of_followPath h,
    drain_evaluate_of_followPath_eq_error h true⟩

/-- With more selectors behind it, a path that cannot be followed still ends in the same way. -/
theorem drain_evaluate_append_of_followPath_eq_error {error : EvaluationError}
    (h : followPath path root = .error error) (more : List SingularSelector) (strict : Bool) :
    (evaluate strict ((path ++ more).map SingularSelector.toSelector) root).drain =
      (evaluate strict (path.map SingularSelector.toSelector) root).drain := by
  have hmore : followPath (path ++ more) root = .error error := by
    rw [followPath_append, h]
    rfl
  rw [drain_evaluate_of_followPath_eq_error hmore, drain_evaluate_of_followPath_eq_error h]

/-- Asking for the only match of a path answers where following it ends. -/
theorem selectOne_toSelector (expression : String) (strict : Bool) :
    Path.selectOne ⟨expression, path.map SingularSelector.toSelector⟩ strict root =
        (followPath path root).map some ∨
      strict = false ∧
        Path.selectOne ⟨expression, path.map SingularSelector.toSelector⟩ strict root =
          .ok none := by
  have hone : Path.selectOne ⟨expression, path.map SingularSelector.toSelector⟩ strict root =
      Nodes.onlyMatch (evaluate strict (path.map SingularSelector.toSelector) root).drain.1
        (evaluate strict (path.map SingularSelector.toSelector) root).drain.2 :=
    Nodes.single_eq_onlyMatch _
  rw [hone]
  cases hfollow : followPath path root with
  | ok node =>
    rw [drain_evaluate_of_followPath_eq_ok hfollow]
    exact Or.inl rfl
  | error error =>
    rw [drain_evaluate_of_followPath_eq_error hfollow]
    cases strict with
    | false => exact Or.inr ⟨rfl, rfl⟩
    | true => exact Or.inl rfl

/-- A singular path has no several matches. -/
theorem selectOne_toSelector_ne_multipleMatches (expression : String) (strict : Bool) :
    Path.selectOne ⟨expression, path.map SingularSelector.toSelector⟩ strict root ≠
      .error .multipleMatches := by
  intro h
  rcases selectOne_toSelector expression strict with hone | ⟨-, hone⟩
  · cases hfollow : followPath path root with
    | ok node =>
      rw [hone, hfollow] at h
      contradiction
    | error error =>
      rw [hone, hfollow] at h
      obtain rfl : error = .multipleMatches := Except.error.inj h
      exact absurd (isNoMatch_of_followPath hfollow) Bool.false_ne_true
  · rw [hone] at h
    contradiction

/-- With strictness, a singular path finds its match or fails. -/
theorem selectOne_strict_toSelector_ne_none (expression : String) :
    Path.selectOne ⟨expression, path.map SingularSelector.toSelector⟩ true root ≠ .ok none := by
  intro h
  rcases selectOne_toSelector expression true with hone | ⟨hstrict, -⟩
  · cases hfollow : followPath path root <;> rw [hone, hfollow] at h <;> cases h
  · contradiction

end

/-- A singular path finds one node in both evaluations, or nothing in the lenient one and an error
in the strict one.  That error is for lack of a match, and it is the one of the first selector that
finds nothing where the selectors before it lead to.  So there are never several matches, and in a
strict evaluation never none without an error.  With more such selectors behind it, a path that
finds nothing still finds nothing, with the same error. -/
theorem drain_evaluate_singular (path : List SingularSelector) (root : Json) :
    ((∃ node, ∀ strict,
        (evaluate strict (path.map SingularSelector.toSelector) root).drain = ([node], none)) ∨
      ((evaluate false (path.map SingularSelector.toSelector) root).drain = ([], none) ∧
        ∃ before selector after node error, path = before ++ selector :: after ∧
          (evaluate false (before.map SingularSelector.toSelector) root).drain = ([node], none) ∧
          (evaluate false [selector.toSelector] node).drain = ([], none) ∧
          (evaluate true [selector.toSelector] node).drain = ([], some error) ∧
          error.isNoMatch = true ∧
          (evaluate true (path.map SingularSelector.toSelector) root).drain =
            ([], some error))) ∧
    (∀ expression strict,
      Path.selectOne ⟨expression, path.map SingularSelector.toSelector⟩ strict root ≠
        .error .multipleMatches) ∧
    (∀ expression,
      Path.selectOne ⟨expression, path.map SingularSelector.toSelector⟩ true root ≠ .ok none) ∧
    ((evaluate false (path.map SingularSelector.toSelector) root).drain = ([], none) →
      ∀ more : List SingularSelector,
        (evaluate false ((path ++ more).map SingularSelector.toSelector) root).drain = ([], none) ∧
        (evaluate true ((path ++ more).map SingularSelector.toSelector) root).drain =
          (evaluate true (path.map SingularSelector.toSelector) root).drain) := by
  refine ⟨?_, selectOne_toSelector_ne_multipleMatches, selectOne_strict_toSelector_ne_none, ?_⟩
  · cases hfollow : followPath path root with
    | ok node => exact Or.inl ⟨node, drain_evaluate_of_followPath_eq_ok hfollow⟩
    | error error =>
      obtain ⟨before, selector, after, node, hselector⟩ :=
        exists_selector_of_followPath_eq_error hfollow
      exact Or.inr ⟨drain_evaluate_of_followPath_eq_error hfollow false, before, selector, after,
        node, error, hselector⟩
  · intro h more
    obtain ⟨error, hfollow⟩ := exists_followPath_eq_error_of_drain h
    have hmore := drain_evaluate_append_of_followPath_eq_error hfollow more
    exact ⟨(hmore false).trans h, hmore true⟩

/-- The member is there, but it is too short; the error stays that of the index. -/
theorem drain_evaluate_singular_missing_index :
    let path : List SingularSelector := [.member "a", .element (-3)]
    let more : List SingularSelector := [.member "b"]
    let root : Json := .object [("a", .array [.null, .boolean true])]
    (evaluate false (path.map SingularSelector.toSelector) root).drain = ([], none) ∧
      (evaluate false ((path ++ more).map SingularSelector.toSelector) root).drain =
        ([], none) ∧
      (evaluate true ((path ++ more).map SingularSelector.toSelector) root).drain =
        ([], some (.indexOutOfBounds (-3))) := by
  intro path more root
  have hnothing : (evaluate false (path.map SingularSelector.toSelector) root).drain =
      ([], none) := rfl
  have herror : (evaluate true (path.map SingularSelector.toSelector) root).drain =
      ([], some (.indexOutOfBounds (-3))) := rfl
  obtain ⟨-, -, -, hmore⟩ := drain_evaluate_singular path root
  obtain ⟨hlenient, hstrict⟩ := hmore hnothing more
  exact ⟨hnothing, hlenient, hstrict.trans herror⟩

end JsonSelect
