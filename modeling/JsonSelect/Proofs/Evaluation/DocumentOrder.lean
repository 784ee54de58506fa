import Mathlib.Data.List.Flatten
import Mathlib.Tactic.Common
import JsonSelect.Proofs.Json.Preorder
import JsonSelect.Proofs.Evaluation.DepthFirst
import JsonSelect.Proofs.Evaluation.Slice

/-!
# Matches in document order

Members, single elements, forward slices and filters take some children of a node and leave their
order as it is.  A path of such selectors goes down one level with each of them, so that no match
lies below another one, and the matches stand in the order of the document.  The induction on the
path carries more than the matches: the matches *with everything below them*, one after the other,
are a subsequence of the nodes of the document (`flatMap_nodes_sublist`).  A descent at the end
replaces each match by nodes from its own part of that subsequence.

An error in a strict evaluation does no more than end the matches early, so it is enough to look
at all nodes among the items (`foundNodes`), those after an error included.
-/

namespace JsonSelect

open scoped List

/-! ### Nodes among items -/

/-- All nodes among some items, whatever errors stand between them. -/
def foundNodes (items : List Item) : List Json :=
  items.filterMap Except.toOption

@[simp] theorem foundNodes_append (items more : List Item) :
    foundNodes (items ++ more) = foundNodes items ++ foundNodes more :=
  List.filterMap_append

@[simp] theorem foundNodes_map_ok (nodes : List Json) : foundNodes (nodes.map .ok) = nodes := by
  rw [foundNodes, List.filterMap_map]
  exact List.filterMap_some

@[simp] theorem foundNodes_items_foundAll (nodes : List Json) :
    foundNodes (Event.items (foundAll nodes)) = nodes := by
  rw [Event.items_foundAll, foundNodes_map_ok]

/-- No node is found where there is no match. -/
@[simp] theorem foundNodes_items_noMatch (strict : Bool) (error : EvaluationError) :
    foundNodes (Event.items (noMatch strict error)) = [] := by
  cases strict <;> rfl

/-- Continuing from items, only their nodes lead to further nodes. -/
theorem foundNodes_flatMap_continueFrom (items : List Item) (next : Json → List Item) :
    foundNodes (items.flatMap (continueFrom next)) =
      (foundNodes items).flatMap fun node => foundNodes (next node) := by
  induction items with
  | nil => rfl
  | cons item rest ih =>
    rw [List.flatMap_cons, foundNodes_append, ih]
    cases item <;> rfl

/-- The nodes before the first error are the first of all nodes. -/
theorem drained_fst_isPrefix_foundNodes (items : List Item) :
    (drained items).1 <+: foundNodes items := by
  induction items with
  | nil => exact List.prefix_rfl
  | cons item rest ih =>
    cases item with
    | ok node => exact List.cons_prefix_cons.2 ⟨rfl, ih⟩
    | error error => exact List.nil_prefix

/-! ### Selectors that keep the order -/

/-- Whether a selector takes some children of a node in their order, each at most once. -/
def Selector.keepsOrder : Selector → Bool
  | .member _ | .element _ | .filter _ => true
  | .slice _ _ step => 0 < step.getD 1
  | .descent _ | .elements _ => false

/-- A member is a child. -/
theorem Json.mem_children_of_member? {members : List (String × Json)} {name : String}
    {value : Json} (h : Json.member? members name = some value) :
    value ∈ (Json.object members).children := by
  obtain ⟨front, rest, rfl, -⟩ := List.lookup_eq_some_iff.1 h
  exact List.mem_map_of_mem (List.mem_append_right front List.mem_cons_self)

/-- An element is a child. -/
theorem Json.mem_children_of_element? {elements : List Json} {index : Int64} {value : Json}
    (h : Json.element? elements index = some value) : value ∈ (Json.array elements).children := by
  obtain ⟨i, -, hi⟩ := Option.bind_eq_some_iff.1 h
  exact List.mem_of_getElem? hi

/-- Members are found among the children, in their order. -/
theorem foundNodes_memberEvents_sublist (strict : Bool) (name : Option String) (node : Json) :
    foundNodes (Event.items (memberEvents strict name node)) <+ node.children := by
  cases node with
  | object members =>
    cases name with
    | none => simp [memberEvents]
    | some name =>
      cases h : Json.member? members name with
      | none => simp [memberEvents, h]
      | some value => simpa [memberEvents, h] using Json.mem_children_of_member? h
  | array elements => cases name <;> simp [memberEvents, Json.children]
  | _ => simp [memberEvents]

/-- Elements are found among the children, in their order. -/
theorem foundNodes_elementEvents_sublist (strict : Bool) (index : Option Int64) (node : Json) :
    foundNodes (Event.items (elementEvents strict index node)) <+ node.children := by
  cases node with
  | array elements =>
    cases index with
    | none => simp [elementEvents, Json.children]
    | some index =>
      cases h : Json.element? elements index with
      | none => simp [elementEvents, h]
      | some value => simpa [elementEvents, h] using Json.mem_children_of_element? h
  | _ => simp [elementEvents]

/-- The elements of a slice that goes forward are found among the children, in their order. -/
theorem foundNodes_sliceEvents_sublist (strict : Bool) (start stop : Option Int64)
    {step : Option Int64} (hstep : 0 < step.getD 1) (node : Json) :
    foundNodes (Event.items (sliceEvents strict start stop step node)) <+ node.children := by
  cases node with
  | array elements =>
    have hne : step.getD 1 ≠ 0 := by
      intro hzero
      rw [hzero] at hstep
      contradiction
    have hforward : 0 < (SliceBounds.settle elements.length start stop (step.getD 1) hne).step := by
      rw [SliceBounds.settle_step]
      exact hstep
    simp only [sliceEvents, dif_neg hne]
    split
    · rw [foundNodes_items_foundAll]
      exact SliceBounds.elements_sublist hforward elements
    · rw [foundNodes_items_noMatch]
      exact List.nil_sublist _
  | _ => simp [sliceEvents]

/-- A selector that keeps the order finds children in their order. -/
theorem Selector.foundNodes_items_sublist {selector : Selector}
    (h : selector.keepsOrder = true) (strict : Bool) (node : Json) :
    foundNodes (selector.items strict node) <+ node.children := by
  cases selector with
  | member name => exact foundNodes_memberEvents_sublist strict name node
  | element index => exact foundNodes_elementEvents_sublist strict index node
  | slice start stop step =>
    exact foundNodes_sliceEvents_sublist strict start stop (of_decide_eq_true h) node
  | filter conditions =>
    rw [Selector.items, foundNodes_map_ok]
    exact List.filter_sublist
  | descent | elements => contradiction

/-! ### Paths that keep the order -/

/-- The matches of such a path, each with everything below it, are in the order of the document
and do not overlap. -/
theorem flatMap_nodes_sublist {path : List Selector}
    (h : ∀ selector ∈ path, selector.keepsOrder = true) (strict : Bool) (node : Json) :
    (foundNodes (pathItems strict path node)).flatMap Json.nodes <+ node.nodes := by
  induction path generalizing node with
  | nil =>
    have hone : (foundNodes (pathItems strict [] node)).flatMap Json.nodes = node.nodes :=
      List.append_nil _
    exact hone ▸ List.Sublist.refl _
  | cons selector rest ih =>
    have hselector := selector.foundNodes_items_sublist (h _ List.mem_cons_self) strict node
    have hrest := ih fun other hmem => h other (List.mem_cons_of_mem _ hmem)
    rw [pathItems_cons, foundNodes_flatMap_continueFrom, List.flatMap_assoc, Json.nodes_eq node]
    calc (foundNodes (selector.items strict node)).flatMap
          (fun found => (foundNodes (pathItems strict rest found)).flatMap Json.nodes)
      _ <+ (foundNodes (selector.items strict node)).flatMap Json.nodes :=
        List.Sublist.flatMap_right _ fun found _ => hrest found
      _ <+ node.children.flatMap Json.nodes := hselector.flatMap Json.nodes
      _ <+ node :: node.children.flatMap Json.nodes := List.sublist_cons_self _ _

/-- The entries of a walk are found one after the other. -/
theorem items_map_found (entries : LazyList Entry) :
    Event.items (entries.map fun entry => .found entry.2) =
      (entries.toList.map Prod.snd).map .ok := by
  rw [Event.items, LazyList.toList_map, List.filterMap_map, List.map_map, ← List.filterMap_eq_map]
  rfl

/-- A descent to everything finds all nodes. -/
theorem items_descentEvents_none (node : Json) :
    Event.items (descentEvents none node) = node.nodes.map .ok := by
  rw [descentEvents, Event.items_cons, items_map_found, Json.nodes_eq_cons_descendants]
  rfl

/-- A descent to a name finds the members below the node that have this name. -/
theorem items_descentEvents_some (name : String) (node : Json) :
    Event.items (descentEvents (some name) node) =
      ((node.preorder.filter fun entry => entry.1 == some name).map Prod.snd).map .ok := by
  rw [descentEvents, items_map_found, LazyList.toList_filter, Json.toList_descendants]

/-- A descent finds nodes in the order of the document. -/
theorem foundNodes_descentEvents_sublist (name : Option String) (node : Json) :
    foundNodes (Event.items (descentEvents name node)) <+ node.nodes := by
  cases name with
  | none =>
    rw [items_descentEvents_none, foundNodes_map_ok]
  | some name =>
    rw [items_descentEvents_some, foundNodes_map_ok]
    exact (List.filter_sublist.map Prod.snd).trans (List.sublist_cons_self _ _)

/-- At the end of a path either nothing follows or a descent does. -/
theorem foundNodes_pathItems_descent_sublist (strict : Bool) (last : Option (Option String))
    (node : Json) :
    foundNodes (pathItems strict (last.map .descent).toList node) <+ node.nodes := by
  cases last with
  | none => exact node.singleton_sublist_nodes
  | some name =>
    have hitems : pathItems strict [.descent name] node = Event.items (descentEvents name node) :=
      flatMap_continueFrom_ok _
    exact hitems ▸ foundNodes_descentEvents_sublist name node

/-- Where members, single elements, forward slices and filters are followed by at most one
descent, the matches are a subsequence of the root and everything below it, in strict and in
lenient evaluation. -/
theorem drain_evaluate_sublist {front : List Selector}
    (h : ∀ selector ∈ front, selector.keepsOrder = true) (last : Option (Option String))
    (strict : Bool) (root : Json) :
    (evaluate strict (front ++ (last.map .descent).toList) root).drain.1 <+
      root :: root.descendants.toList.map Prod.snd := by
  rw [drain_evaluate, ← Json.nodes_eq_cons_descendants]
  refine (drained_fst_isPrefix_foundNodes _).sublist.trans ?_
  rw [pathItems_append, foundNodes_flatMap_continueFrom]
  calc (foundNodes (pathItems strict front root)).flatMap
        (fun node => foundNodes (pathItems strict (last.map .descent).toList node))
    _ <+ (foundNodes (pathItems strict front root)).flatMap Json.nodes :=
      List.Sublist.flatMap_right _ fun node _ =>
        foundNodes_pathItems_descent_sublist strict last node
    _ <+ root.nodes := flatMap_nodes_sublist h strict root

/-- Several elements come in the order in which they are asked for. -/
example :
    (evaluate false [.elements [1, 0]] (.array [.null, .boolean true])).drain.1 =
      [.boolean true, .null] :=
  rfl

/-- A filter and every second element, and then everything below. -/
theorem drain_evaluate_sublist_filter_slice :
    (∀ selector ∈ [.filter [.mk [.element (some 0)] .present none], .slice none none (some 2)],
      Selector.keepsOrder selector = true) ∧
    (evaluate true
        ([.filter [.mk [.element (some 0)] .present none], .slice none none (some 2)] ++
          ((some none).map Selector.descent).toList)
        (.object [("a", .null), ("b", .array [.array [.null], .null, .null])])).drain.1 <+
      .object [("a", .null), ("b", .array [.array [.null], .null, .null])] ::
        (Json.object
          [("a", .null), ("b", .array [.array [.null], .null, .null])]).descendants.toList.map
          Prod.snd := by
  have hkeeps : ∀ selector ∈
      [.filter [.mk [.element (some 0)] .present none], .slice none none (some 2)],
      Selector.keepsOrder selector = true := by
    simp [Selector.keepsOrder]
  exact ⟨hkeeps, drain_evaluate_sublist hkeeps (some none) true _⟩

end JsonSelect
