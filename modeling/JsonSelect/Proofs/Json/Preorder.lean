import Mathlib.Data.List.Perm.Subperm
import Mathlib.Tactic.Common
import JsonSelect.Json.Walk

/-!
# The nodes of a document in order

A walk keeps a stack of rows and a step takes the next entry from it.  What it yields altogether
is what the recursion on the tree lists (`Json.toList_descendants`), because one step takes
exactly the first of the entries that the rows stand for.

`Json.nodes` puts the node itself in front.  It is the form in which one document order fits into
another: the nodes of a document are its root and then those of each child, one child after the
other (`Json.nodes_eq`).  By induction on the children, every entry belongs to exactly one node,
of which its own node is a child (`Json.preorder_perm`, `Json.nodes_perm`).
-/

namespace JsonSelect

open scoped List

namespace Walk

/-- A walk that is at its end has no entries left. -/
theorem flatMap_preorder_of_advance_eq_none {rows : List (List Entry)}
    (h : advance rows = none) : rows.flatMap preorderOfEntries = [] := by
  fun_induction advance rows with
  | case1 => rfl
  | case2 rows ih => exact ih h
  | case3 => contradiction

/-- A walk yields the entries of its rows, each followed by everything below it. -/
theorem toList_entries (walk : Walk) :
    walk.entries.toList = walk.rows.flatMap preorderOfEntries := by
  fun_induction entries walk with
  | case1 walk h =>
    have hend : advance walk.rows = none := Option.map_eq_none_iff.1 h
    exact (flatMap_preorder_of_advance_eq_none hend).symm
  | case2 walk entry rest h ih =>
    obtain ⟨⟨_, rows⟩, hstep, hparts⟩ := Option.map_eq_some_iff.1 h
    obtain ⟨rfl, rfl⟩ := Prod.mk.inj hparts
    rw [LazyList.toList_cons, ih, flatMap_preorder_of_advance hstep]

end Walk

namespace Json

/-- The walk below a node visits what the recursion lists. -/
theorem toList_descendants (node : Json) : node.descendants.toList = node.preorder := by
  rw [descendants, Walk.toList_entries, preorder_eq]
  exact List.append_nil _

/-- A node and everything below it, in document order. -/
def nodes (node : Json) : List Json :=
  node :: node.preorder.map Prod.snd

/-- The nodes of a document are the root and its descendants. -/
theorem nodes_eq_cons_descendants (node : Json) :
    node.nodes = node :: node.descendants.toList.map Prod.snd := by
  rw [toList_descendants, nodes]

/-- The nodes of a document are its root and the nodes of each child. -/
theorem nodes_eq (node : Json) : node.nodes = node :: node.children.flatMap nodes := by
  rw [nodes, preorder_eq, children_eq_map_entries, preorderOfEntries, List.map_flatMap,
    List.flatMap_map]
  rfl

/-- A node comes first among its own. -/
theorem singleton_sublist_nodes (node : Json) : [node] <+ node.nodes :=
  List.singleton_sublist.2 List.mem_cons_self

/-! ### Children and what lies below them -/

theorem mem_children_of_mem_entries {node : Json} {entry : Entry} (h : entry ∈ node.entries) :
    entry.2 ∈ node.children := by
  rw [children_eq_map_entries]
  exact List.mem_map_of_mem h

/-- A child is smaller than its node. -/
theorem sizeOf_lt_of_mem_children {node child : Json} (h : child ∈ node.children) :
    sizeOf child < sizeOf node := by
  cases node with
  | array elements =>
    have hmem : child ∈ elements := h
    have hlt := List.sizeOf_lt_of_mem hmem
    simp only [array.sizeOf_spec]
    omega
  | object members =>
    obtain ⟨⟨name, value⟩, hmem, rfl⟩ := List.mem_map.mp h
    have hlt := List.sizeOf_lt_of_mem hmem
    simp only [object.sizeOf_spec, Prod.mk.sizeOf_spec] at hlt ⊢
    omega
  | _ => exact absurd h (List.not_mem_nil)

/-- What is true of a node if it is true of its children is true of every node. -/
theorem inductionOnChildren {motive : Json → Prop}
    (h : ∀ node, (∀ child ∈ node.children, motive child) → motive node) (node : Json) :
    motive node :=
  h node fun child _ => inductionOnChildren h child
termination_by sizeOf node
decreasing_by exact sizeOf_lt_of_mem_children ‹_›

/-- Every entry below a node belongs to exactly one of the nodes. -/
theorem preorder_perm (node : Json) : node.preorder ~ node.nodes.flatMap entries := by
  induction node using inductionOnChildren with
  | h node ih =>
    have hbelow (entry : Entry) (h : entry ∈ node.entries) :
        entry.2.preorder ~ entry.2.nodes.flatMap entries :=
      ih _ (mem_children_of_mem_entries h)
    calc node.preorder
      _ = node.entries.flatMap fun entry => entry :: entry.2.preorder := node.preorder_eq
      _ ~ node.entries.map id ++ node.entries.flatMap fun entry => entry.2.preorder :=
        (List.map_append_flatMap_perm _ id _).symm
      _ ~ node.entries ++ node.entries.flatMap fun entry => entry.2.nodes.flatMap entries := by
        rw [List.map_id]
        exact (List.Perm.flatMap_left _ hbelow).append_left _
      _ = node.nodes.flatMap entries := by
        rw [nodes_eq node, List.flatMap_cons, List.flatMap_assoc, children_eq_map_entries,
          List.flatMap_map]

/-- Every node but the root is a child of exactly one node. -/
theorem nodes_perm (node : Json) : node.nodes ~ node :: node.nodes.flatMap children := by
  have hchildren : (node.nodes.flatMap entries).map Prod.snd = node.nodes.flatMap children := by
    rw [List.map_flatMap]
    exact List.flatMap_congr fun _ _ => (children_eq_map_entries _).symm
  rw [← hchildren]
  exact (node.preorder_perm.map Prod.snd).cons node

/-- The children of all nodes are among the nodes, each one as often. -/
theorem flatMap_children_subperm (node : Json) : node.nodes.flatMap children <+~ node.nodes :=
  ((List.sublist_cons_self _ _).subperm).trans node.nodes_perm.symm.subperm

/-- What lies below a node of a document lies in the document. -/
theorem nodes_subset_of_mem {node below : Json} (h : below ∈ node.nodes) :
    below.nodes ⊆ node.nodes := by
  induction node using inductionOnChildren with
  | h node ih =>
    rw [nodes_eq node] at h
    rcases List.mem_cons.mp h with rfl | h
    · exact List.Subset.refl _
    · obtain ⟨child, hchild, hbelow⟩ := List.mem_flatMap.mp h
      intro other hother
      rw [nodes_eq node]
      refine List.mem_cons_of_mem _ (List.mem_flatMap.mpr ⟨child, hchild, ?_⟩)
      exact ih child hchild hbelow hother

end Json

end JsonSelect
