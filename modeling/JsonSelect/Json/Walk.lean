import JsonSelect.LazyList
import JsonSelect.Json.Basic

/-!
# Walking a document

Everything below a node is visited in document order: each child, and then everything below that
child before its next sibling. `Walk` does this step by step with a stack of rows of siblings
still to be visited, `Json.preorder` by recursion on the tree. The first is what descent into a
document uses, entry by entry and on demand; the second says what its result is.
-/

namespace JsonSelect

/-! ### By recursion -/

mutual

/-- Everything below a node, in document order. -/
def Json.preorder : Json → List Entry
  | .array elements => Json.preorderOfElements elements
  | .object members => Json.preorderOfMembers members
  | _ => []
termination_by structural node => node

/-- The elements of an array, each followed by everything below it. -/
def Json.preorderOfElements : List Json → List Entry
  | [] => []
  | value :: rest => (none, value) :: (value.preorder ++ Json.preorderOfElements rest)
termination_by structural elements => elements

/-- The members of an object, each followed by everything below it. -/
def Json.preorderOfMembers : List (String × Json) → List Entry
  | [] => []
  | (name, value) :: rest =>
    (some name, value) :: (value.preorder ++ Json.preorderOfMembers rest)
termination_by structural members => members

end

/-- Rows of siblings, each entry followed by everything below it. -/
def preorderOfEntries (row : List Entry) : List Entry :=
  row.flatMap fun entry => entry :: entry.2.preorder

/-- The elements of an array come in preorder like entries without a name. -/
theorem Json.preorderOfElements_eq (elements : List Json) :
    Json.preorderOfElements elements = preorderOfEntries (elements.map fun v => (none, v)) := by
  induction elements with
  | nil => rfl
  | cons value rest ih => simp [Json.preorderOfElements, ih, preorderOfEntries]

/-- The members of an object come in preorder like entries with their names. -/
theorem Json.preorderOfMembers_eq (members : List (String × Json)) :
    Json.preorderOfMembers members =
      preorderOfEntries (members.map fun (name, v) => (some name, v)) := by
  induction members with
  | nil => rfl
  | cons m rest ih => simp [Json.preorderOfMembers, ih, preorderOfEntries]

/-- Everything below a node is its children, each followed by everything below it. -/
theorem Json.preorder_eq (node : Json) : node.preorder = preorderOfEntries node.entries := by
  cases node with
  | array elements => exact Json.preorderOfElements_eq elements
  | object members => exact Json.preorderOfMembers_eq members
  | _ => rfl

/-! ### Step by step -/

/-- A walk in progress: rows of siblings that are still to be visited, the deepest row first. -/
structure Walk where
  rows : List (List Entry)

namespace Walk

/-- The walk over everything below a node. -/
def below (node : Json) : Walk :=
  ⟨[node.entries]⟩

/-- The entry visited next in the given rows and the rows left after it, where the children of a
container become a row of their own. -/
def advance : List (List Entry) → Option (Entry × List (List Entry))
  | [] => none
  | [] :: rows => advance rows
  | (entry :: row) :: rows =>
    some (entry, if entry.2.isContainer then entry.2.entries :: row :: rows else row :: rows)

/-- The entry visited next, and the walk after it. -/
def next? (walk : Walk) : Option (Entry × Walk) :=
  (advance walk.rows).map fun (entry, rows) => (entry, ⟨rows⟩)

/-- The number of entries that a walk has still to visit. -/
def remaining (walk : Walk) : Nat :=
  (walk.rows.flatMap preorderOfEntries).length

/-- An entry comes before what is below it, and that before the other entries. -/
theorem preorderOfEntries_cons (entry : Entry) (row : List Entry) :
    preorderOfEntries (entry :: row) = entry :: (entry.2.preorder ++ preorderOfEntries row) := by
  simp [preorderOfEntries]

/-- There is nothing below a node that is no container. -/
theorem preorder_eq_nil_of_not_isContainer {node : Json} (h : node.isContainer = false) :
    node.preorder = [] := by
  cases node <;> simp_all [Json.isContainer, Json.preorder]

/-- One step takes exactly the first of the entries still to be visited. -/
theorem flatMap_preorder_of_advance {rows rest : List (List Entry)} {entry : Entry}
    (h : advance rows = some (entry, rest)) :
    rows.flatMap preorderOfEntries = entry :: rest.flatMap preorderOfEntries := by
  fun_induction advance rows with
  | case1 => simp at h
  | case2 rows ih => simpa [preorderOfEntries] using ih h
  | case3 entry' row rows =>
    obtain ⟨rfl, rfl⟩ := by simpa using h
    cases hc : entry'.2.isContainer with
    | true => simp [preorderOfEntries_cons, Json.preorder_eq]
    | false => simp [preorderOfEntries_cons, preorder_eq_nil_of_not_isContainer hc]

/-- Each step of a walk leaves fewer entries to come. -/
theorem remaining_lt_of_next? {walk rest : Walk} {entry : Entry}
    (h : walk.next? = some (entry, rest)) : rest.remaining < walk.remaining := by
  unfold next? at h
  cases hr : advance walk.rows with
  | none => simp [hr] at h
  | some result =>
    obtain ⟨e, rows⟩ := result
    obtain ⟨rfl, rfl⟩ : e = entry ∧ Walk.mk rows = rest := by simpa [hr] using h
    simp [remaining, flatMap_preorder_of_advance hr]

set_option linter.unusedVariables false in
/-- All entries of a walk, in the order in which it visits them. -/
def entries (walk : Walk) : LazyList Entry :=
  match h : walk.next? with
  | none => .nil
  | some (entry, rest) => .cons entry fun _ => rest.entries
termination_by walk.remaining
decreasing_by exact remaining_lt_of_next? h

end Walk

/-- Everything below a node, in document order. -/
def Json.descendants (node : Json) : LazyList Entry :=
  (Walk.below node).entries

end JsonSelect
