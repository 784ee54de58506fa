import Mathlib.Data.List.Perm.Basic
import Mathlib.Tactic.Common
import JsonSelect.Proofs.Json.Names
import JsonSelect.Proofs.Json.Places
import JsonSelect.Proofs.Evaluation.DocumentOrder

/-!
# Descent to a name

All members of a name below a node are selected by a descent to that name, and also by a descent to
everything that is followed by the member of that name.  The first goes through the entries of the
document and looks at their names, the second looks a name up in every node.  They find the same
members in a different order: a member of a nested object comes before the members that follow that
object in the first, and after them in the second.

Where names are distinct the two results are permutations of each other, since every entry belongs
to exactly one node (`Json.preorder_perm`) and a node has no more than one member of a name.
-/

namespace JsonSelect

open scoped List

variable {root : Json} (name : String)

/-! ### What the two paths find -/

/-- A descent to a name finds the named ones among all entries. -/
theorem pathItems_descent_named (strict : Bool) (root : Json) :
    pathItems strict [.descent (some name)] root =
      ((root.preorder.filter fun entry => entry.1 == some name).map Prod.snd).map .ok := by
  rw [← items_descentEvents_some]
  exact flatMap_continueFrom_ok _

/-- Without strictness a member is looked up in objects, and other nodes are passed over. -/
theorem items_memberEvents_named {node : Json} (h : node.HasDistinctNames) :
    Event.items (memberEvents false (some name) node) = (node.namedMembers name).map .ok := by
  cases node with
  | object members =>
    obtain ⟨hnames, -⟩ := Json.hasDistinctNames_object.mp h
    rw [← Json.toList_member? hnames, memberEvents]
    cases Json.member? members name <;> rfl
  | array elements =>
    have hnone : (Json.array elements).namedMembers name = [] := by
      simp [Json.namedMembers, Json.entries]
    rw [hnone]
    rfl
  | _ => rfl

/-- A descent to everything and then to the member of a name finds the members of that name in each
node. -/
theorem pathItems_descent_member (h : root.HasDistinctNames) :
    pathItems false [.descent none, .member (some name)] root =
      (root.nodes.flatMap (Json.namedMembers name)).map .ok := by
  have hdescent : (Selector.descent none).items false root = root.nodes.map .ok :=
    items_descentEvents_none root
  have hmember (node : Json) (hnode : node ∈ root.nodes) :
      pathItems false [.member (some name)] node = (node.namedMembers name).map .ok := by
    have hdistinct : node.HasDistinctNames := fun members hmembers =>
      h members (Json.nodes_subset_of_mem hnode hmembers)
    rw [← items_memberEvents_named name hdistinct]
    exact flatMap_continueFrom_ok _
  rw [pathItems_cons, hdescent, List.flatMap_map, List.map_flatMap]
  exact List.flatMap_congr hmember

/-! ### The same members -/

/-- The named ones among all entries are the members of that name in each node. -/
theorem filter_preorder_perm (root : Json) :
    (root.preorder.filter fun entry => entry.1 == some name).map Prod.snd ~
      root.nodes.flatMap (Json.namedMembers name) := by
  have hperm := (root.preorder_perm.filter fun entry => entry.1 == some name).map Prod.snd
  rwa [List.filter_flatMap, List.map_flatMap] at hperm

/-- The named ones among all entries stand at the places that lead to a member of that name, each
of which is there once. -/
theorem exists_places_of_name (root : Json) :
    ∃ places : List (List Nat), places.Nodup ∧
      (∀ place, place ∈ places ↔
        ∃ value, entryAt? (none, root) place = some (some name, value)) ∧
      (root.preorder.filter fun entry => entry.1 == some name).map some =
        places.map (entryAt? (none, root)) := by
  let isNamed (entry : Option Entry) : Bool := entry.any fun entry => entry.1 == some name
  refine ⟨root.places.filter fun place => isNamed (entryAt? (none, root) place), ?_, ?_, ?_⟩
  · exact root.nodup_places.filter _
  · intro place
    rw [List.mem_filter, Json.mem_places_iff]
    constructor
    · rintro ⟨⟨-, ⟨other, value⟩, hentry⟩, hname⟩
      rw [hentry] at hname ⊢
      obtain rfl : other = some name := by simpa [isNamed] using hname
      exact ⟨value, rfl⟩
    · rintro ⟨value, hentry⟩
      refine ⟨⟨?_, _, hentry⟩, by simp [hentry, isNamed]⟩
      -- the root itself has no name
      rintro rfl
      simp [entryAt?] at hentry
  · calc (root.preorder.filter fun entry => entry.1 == some name).map some
      _ = (root.preorder.map some).filter isNamed := by
        rw [List.filter_map]
        rfl
      _ = _ := by
        rw [← root.map_entryAt?_places, List.filter_map]
        rfl

/-- Without strictness, a descent to a name and a descent to everything that is followed by the
member of that name find the same nodes, though in different orders, and without an error.  These
are all members of that name, wherever they stand in the document, and each is found once. -/
theorem drain_evaluate_descent_named (h : root.HasDistinctNames) :
    ∃ found looked : List Json,
      (evaluate false [.descent (some name)] root).drain = (found, none) ∧
      (evaluate false [.descent none, .member (some name)] root).drain = (looked, none) ∧
      found ~ looked ∧
      ∃ places : List (List Nat), places.Nodup ∧
        (∀ place, place ∈ places ↔
          ∃ value, entryAt? (none, root) place = some (some name, value)) ∧
        found.map some = places.map fun place => (entryAt? (none, root) place).map Prod.snd := by
  refine ⟨_, _, ?_, ?_, filter_preorder_perm name root, ?_⟩
  · rw [drain_evaluate, pathItems_descent_named, drained_map_ok]
  · rw [drain_evaluate, pathItems_descent_member name h, drained_map_ok]
  · obtain ⟨places, hnodup, hplaces, hentries⟩ := exists_places_of_name name root
    refine ⟨places, hnodup, hplaces, ?_⟩
    have hvalues := congrArg (List.map (Option.map Prod.snd)) hentries
    simpa [List.map_map, Function.comp_def] using hvalues

/-- A nested member comes first where the entries are followed, and last where the nodes are looked
at one by one. -/
example :
    let root : Json := .object [("b", .array [.object [("a", .null)]]), ("a", .boolean true)]
    (evaluate false [.descent (some "a")] root).drain.1 = [.null, .boolean true] ∧
      (evaluate false [.descent none, .member (some "a")] root).drain.1 =
        [.boolean true, .null] := by
  cbv

/-- Members of one name below another and in an array. -/
theorem drain_evaluate_descent_named_nested :
    let root : Json := .object
      [("a", .object [("b", .array [.object [("a", .null)]]), ("a", .boolean true)])]
    root.HasDistinctNames ∧
    ∃ found looked : List Json,
      (evaluate false [.descent (some "a")] root).drain = (found, none) ∧
      (evaluate false [.descent none, .member (some "a")] root).drain = (looked, none) ∧
      found ~ looked ∧
      ∃ places : List (List Nat), places.Nodup ∧
        (∀ place, place ∈ places ↔
          ∃ value, entryAt? (none, root) place = some (some "a", value)) ∧
        found.map some = places.map fun place => (entryAt? (none, root) place).map Prod.snd := by
  intro root
  have hdistinct : root.HasDistinctNames := by
    have hnull : Json.null.HasDistinctNames := Json.hasDistinctNames_of_not_isContainer rfl
    have htrue : (Json.boolean true).HasDistinctNames :=
      Json.hasDistinctNames_of_not_isContainer rfl
    simp [root, Json.hasDistinctNames_object, Json.hasDistinctNames_array, hnull, htrue]
  exact ⟨hdistinct, drain_evaluate_descent_named "a" hdistinct⟩

end JsonSelect
