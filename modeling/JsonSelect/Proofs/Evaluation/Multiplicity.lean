import Mathlib.Data.List.Flatten
import Mathlib.Data.List.Nodup
import Mathlib.Data.List.Perm.Subperm
import Mathlib.Tactic.Common
import JsonSelect.Proofs.Evaluation.DocumentOrder
import JsonSelect.Proofs.Evaluation.SliceRange

/-!
# How often a node is matched

Whatever a path selects is the root or lies below it.  It may select a node several times: indexes
of a list may be repeated, and after one descent another one reaches the same node from each node
above it.  Without lists of indexes and with no more than one descent no node is selected twice,
wherever the descent stands in the path.

Matches are counted as multisets, that is by `<+~`.  Up to the descent no match lies below another
one, and what the induction carries is that the matches *with everything below them* are among the
nodes of the document, each at most once.  After the descent matches may contain one another, and
only for the matches themselves this is still true.  It stays true when children are taken of them,
since every node but the root is a child of exactly one node (`Json.flatMap_children_subperm`).
-/

namespace JsonSelect

open scoped List

/-! ### Parts of multisets -/

section

variable {α β : Type} {part all : List α}

/-- What comes of some elements is among what comes of all. -/
theorem filterMap_subperm_filterMap (h : part <+~ all) (f : α → Option β) :
    part.filterMap f <+~ all.filterMap f := by
  obtain ⟨front, hperm, hfront⟩ := h
  exact ⟨front.filterMap f, hperm.filterMap f, hfront.filterMap f⟩

/-- The lists that come of some elements are among those that come of all. -/
theorem flatMap_subperm_flatMap (h : part <+~ all) (f : α → List β) :
    part.flatMap f <+~ all.flatMap f := by
  obtain ⟨front, hperm, hfront⟩ := h
  exact ⟨front.flatMap f, hperm.flatMap_right f, hfront.flatMap f⟩

/-- Lists that are parts of others, element by element, are parts of them together. -/
theorem flatMap_subperm_flatMap_right {f g : α → List β} (h : ∀ a, f a <+~ g a) (all : List α) :
    all.flatMap f <+~ all.flatMap g := by
  induction all with
  | nil => exact List.Subperm.refl _
  | cons a rest ih => exact (h a).append ih

/-- Elements taken at different places are taken at most once each. -/
theorem filterMap_getElem?_subperm {places : List Nat} (h : places.Nodup) (values : List α) :
    places.filterMap (values[·]?) <+~ values := by
  have hwhole : (List.range values.length).filterMap (values[·]?) = values := by
    induction values with
    | nil => rfl
    | cons value rest ih =>
      rw [List.length_cons, List.range_succ_eq_map, List.filterMap_cons, List.filterMap_map]
      exact congrArg (value :: ·) ih
  have hpart : places.filterMap (values[·]?) =
      (places.filter (· < values.length)).filterMap (values[·]?) := by
    rw [List.filterMap_filter]
    congr 1
    funext place
    by_cases hplace : place < values.length
    · simp [hplace]
    · simp [hplace]
  have hsub : places.filter (· < values.length) ⊆ List.range values.length := by
    intro place hmem
    exact List.mem_range.mpr (of_decide_eq_true (List.mem_filter.mp hmem).2)
  have hplaces := filterMap_subperm_filterMap ((h.filter _).subperm hsub) (values[·]?)
  rw [hwhole] at hplaces
  exact hpart ▸ hplaces

end

/-! ### Selectors that take children -/

/-- Whether a selector takes some children of a node, each at most once. -/
def Selector.takesChildren : Selector → Bool
  | .member _ | .element _ | .slice _ _ _ | .filter _ => true
  | .descent _ | .elements _ => false

/-- Only lists of elements and descents may find a node more than once or further below. -/
theorem takesChildren_of_kind {selector : Selector} (helements : selector.kind ≠ .elements)
    (hdescent : selector.kind ≠ .descent) : selector.takesChildren = true := by
  cases selector with
  | member | element | slice | filter => rfl
  | descent => exact absurd rfl hdescent
  | elements => exact absurd rfl helements

namespace SliceBounds

/-- A slice visits no position twice. -/
theorem nodup_positions (bounds : SliceBounds) : bounds.positions.Nodup := by
  apply List.Nodup.of_map Int64.toInt
  rw [positions, map_toInt_positionsFrom]
  exact SteppedRange.nodup_toList (toInt_step_ne_zero bounds.step_ne_zero)

/-- The elements of a slice, forwards or backwards, are at different places of the array. -/
theorem elements_subperm (bounds : SliceBounds) (values : List Json) :
    bounds.elements values <+~ values := by
  let place? (position : Int64) : Option Nat :=
    if position < 0 then none else some position.toInt.toNat
  have hplaces : (bounds.positions.filterMap place?).Nodup := by
    refine bounds.nodup_positions.filterMap ?_
    intro position other place hplace hother
    simp only [place?, Option.mem_def, Option.ite_none_left_eq_some, Option.some.injEq,
      Int64.lt_iff_toInt_lt, Int64.toInt_zero] at hplace hother
    exact Int64.toInt_inj.mp (by omega)
  have helements : bounds.elements values =
      (bounds.positions.filterMap place?).filterMap (values[·]?) := by
    rw [elements_eq_filterMap, List.filterMap_filterMap]
    congr 1
    funext position
    simp only [elementAt?, place?]
    split <;> rfl
  exact helements ▸ filterMap_getElem?_subperm hplaces values

end SliceBounds

/-- The elements of a slice are found among the children, each one once. -/
theorem foundNodes_sliceEvents_subperm (strict : Bool) (start stop step : Option Int64)
    (node : Json) :
    foundNodes (Event.items (sliceEvents strict start stop step node)) <+~ node.children := by
  cases node with
  | array elements =>
    by_cases hzero : step.getD 1 = 0
    · simp only [sliceEvents, dif_pos hzero, Event.items_ofList]
      exact List.nil_subperm
    · simp only [sliceEvents, dif_neg hzero]
      split
      · rw [foundNodes_items_foundAll]
        exact SliceBounds.elements_subperm _ elements
      · rw [foundNodes_items_noMatch]
        exact List.nil_subperm
  | _ => simp [sliceEvents, List.nil_subperm]

/-- A selector that takes children finds each of them at most once. -/
theorem Selector.foundNodes_items_subperm {selector : Selector}
    (h : selector.takesChildren = true) (strict : Bool) (node : Json) :
    foundNodes (selector.items strict node) <+~ node.children := by
  cases selector with
  | member name => exact (foundNodes_memberEvents_sublist strict name node).subperm
  | element index => exact (foundNodes_elementEvents_sublist strict index node).subperm
  | slice start stop step => exact foundNodes_sliceEvents_subperm strict start stop step node
  | filter conditions =>
    rw [Selector.items, foundNodes_map_ok]
    exact List.filter_sublist.subperm
  | descent | elements => contradiction

/-- Whatever a selector finds at a node is the node or lies below it. -/
theorem Selector.foundNodes_items_subset (selector : Selector) (strict : Bool) (node : Json) :
    foundNodes (selector.items strict node) ⊆ node.nodes := by
  have hchildren : node.children ⊆ node.nodes := by
    intro child hchild
    rw [Json.nodes_eq]
    exact List.mem_cons_of_mem _ (List.mem_flatMap.mpr ⟨child, hchild, List.mem_cons_self⟩)
  cases selector with
  | member | element | slice | filter =>
    intro value hvalue
    exact hchildren ((foundNodes_items_subperm rfl strict node).subset hvalue)
  | descent name => exact (foundNodes_descentEvents_sublist name node).subset
  | elements indexes =>
    rw [Selector.items, foundNodes, List.filterMap_flatMap]
    intro value hvalue
    obtain ⟨index, -, hvalue⟩ := List.mem_flatMap.mp hvalue
    exact hchildren ((foundNodes_elementEvents_sublist strict (some index) node).subset hvalue)

/-! ### Paths -/

/-- The nodes that a path finds at each of some nodes. -/
def foundFrom (strict : Bool) (path : List Selector) (starts : List Json) : List Json :=
  starts.flatMap fun node => foundNodes (pathItems strict path node)

section

variable {path : List Selector} {starts : List Json} {root : Json} (strict : Bool)

theorem foundFrom_nil : foundFrom strict [] starts = starts := by
  simp [foundFrom, foundNodes, Except.toOption]

/-- A path goes on from what its first selector finds. -/
theorem foundFrom_cons (selector : Selector) (rest : List Selector) :
    foundFrom strict (selector :: rest) starts =
      foundFrom strict rest
        (starts.flatMap fun node => foundNodes (selector.items strict node)) := by
  simp only [foundFrom, pathItems_cons, foundNodes_flatMap_continueFrom, List.flatMap_assoc]

/-- No path leaves the document. -/
theorem foundFrom_subset (hstarts : starts ⊆ root.nodes) :
    foundFrom strict path starts ⊆ root.nodes := by
  induction path generalizing starts with
  | nil => rwa [foundFrom_nil]
  | cons selector rest ih =>
    rw [foundFrom_cons]
    apply ih
    intro found hfound
    obtain ⟨node, hnode, hfound⟩ := List.mem_flatMap.mp hfound
    exact Json.nodes_subset_of_mem (hstarts hnode)
      (selector.foundNodes_items_subset strict node hfound)

/-- Where only children are taken, no node is reached twice from different nodes of a document,
although these may contain one another. -/
theorem foundFrom_subperm_of_takesChildren
    (h : ∀ selector ∈ path, selector.takesChildren = true) (hstarts : starts <+~ root.nodes) :
    foundFrom strict path starts <+~ root.nodes := by
  induction path generalizing starts with
  | nil => rwa [foundFrom_nil]
  | cons selector rest ih =>
    obtain ⟨hselector, hrest⟩ := List.forall_mem_cons.mp h
    rw [foundFrom_cons]
    apply ih hrest
    have hfound : starts.flatMap (fun node => foundNodes (selector.items strict node)) <+~
        starts.flatMap Json.children :=
      flatMap_subperm_flatMap_right (selector.foundNodes_items_subperm hselector strict) starts
    have hchildren : starts.flatMap Json.children <+~ root.nodes.flatMap Json.children :=
      flatMap_subperm_flatMap hstarts Json.children
    exact hfound.trans (hchildren.trans root.flatMap_children_subperm)

/-- With one descent at most no node is reached twice from nodes that do not contain one
another. -/
theorem foundFrom_subperm (helements : ∀ selector ∈ path, selector.kind ≠ .elements)
    (hdescent : path.countP (fun selector => selector.kind = .descent) ≤ 1)
    (hstarts : starts.flatMap Json.nodes <+~ root.nodes) :
    foundFrom strict path starts <+~ root.nodes := by
  induction path generalizing starts with
  | nil =>
    have hself : starts.flatMap (fun node => [node]) <+~ starts.flatMap Json.nodes :=
      flatMap_subperm_flatMap_right (fun node => node.singleton_sublist_nodes.subperm) starts
    rw [List.flatMap_singleton'] at hself
    rw [foundFrom_nil]
    exact hself.trans hstarts
  | cons selector rest ih =>
    obtain ⟨hselector, hrest⟩ := List.forall_mem_cons.mp helements
    rw [foundFrom_cons]
    by_cases hkind : selector.kind = .descent
    · -- Whatever is found lies in the disjoint parts; from here on the matches alone are counted.
      rw [List.countP_cons_of_pos (by simpa using hkind)] at hdescent
      have hchildren : ∀ other ∈ rest, other.takesChildren = true := by
        intro other hmem
        have hzero : rest.countP (fun selector => selector.kind = .descent) = 0 := by omega
        have hother := List.countP_eq_zero.mp hzero other hmem
        exact takesChildren_of_kind (hrest other hmem) (by simpa using hother)
      apply foundFrom_subperm_of_takesChildren strict hchildren
      refine List.Subperm.trans ?_ hstarts
      cases selector with
      | descent name =>
        exact flatMap_subperm_flatMap_right
          (fun node => (foundNodes_descentEvents_sublist name node).subperm) starts
      | _ => contradiction
    · rw [List.countP_cons_of_neg (by simpa using hkind)] at hdescent
      apply ih hrest hdescent
      have hchildren := takesChildren_of_kind hselector hkind
      have hfound := selector.foundNodes_items_subperm hchildren strict
      have hparts (node : Json) :
          (foundNodes (selector.items strict node)).flatMap Json.nodes <+~ node.nodes := by
        rw [Json.nodes_eq node]
        exact (flatMap_subperm_flatMap (hfound node) Json.nodes).trans
          (List.sublist_cons_self _ _).subperm
      rw [List.flatMap_assoc]
      exact (flatMap_subperm_flatMap_right hparts starts).trans hstarts

end

/-- Every match is the root or lies below it.  Where a path has no list of indexes and at most one
descent, in whatever place, no node is matched twice: for every value, and whichever nodes count as
equal to it, there are no more of them among the matches than in the document. -/
theorem drain_evaluate_countP_le (strict : Bool) (path : List Selector) (root : Json) :
    (∀ found ∈ (evaluate strict path root).drain.1,
      found ∈ root :: root.descendants.toList.map Prod.snd) ∧
    ((∀ selector ∈ path, selector.kind ≠ .elements) →
      path.countP (fun selector => selector.kind = .descent) ≤ 1 →
      ∀ (equal : Json → Json → Bool) (value : Json),
        (evaluate strict path root).drain.1.countP (equal value) ≤
          (root :: root.descendants.toList.map Prod.snd).countP (equal value)) := by
  rw [drain_evaluate, ← Json.nodes_eq_cons_descendants]
  have hfront := (drained_fst_isPrefix_foundNodes (pathItems strict path root)).sublist
  have hroot : foundNodes (pathItems strict path root) = foundFrom strict path [root] :=
    (List.append_nil _).symm
  rw [hroot] at hfront
  constructor
  · intro found hfound
    have hstart : [root] ⊆ root.nodes := root.singleton_sublist_nodes.subset
    exact foundFrom_subset strict hstart (hfront.subset hfound)
  · intro helements hdescent equal value
    have hstart : [root].flatMap Json.nodes <+~ root.nodes := by
      simp only [List.flatMap_singleton, List.Subperm.refl]
    exact (hfront.subperm.trans (foundFrom_subperm strict helements hdescent hstart)).countP_le _

/-- After one descent another one reaches a node from each node above it. -/
example :
    (evaluate false [.descent none, .descent none] (.array [.null])).drain.1 =
      [.array [.null], .null, .null] := by
  cbv

/-- A descent in the middle, whose matches contain one another, and then the elements of each match
backwards: `null` is counted. -/
theorem drain_evaluate_countP_le_descent_slice :
    (∀ selector ∈ [.element none, .descent none, .slice none none (some (-1))],
      Selector.kind selector ≠ .elements) ∧
    [.element none, .descent none, .slice none none (some (-1))].countP
      (fun selector => Selector.kind selector = .descent) ≤ 1 ∧
    (evaluate false [.element none, .descent none, .slice none none (some (-1))]
        (.array [.array [.array [.null, .boolean true], .null]])).drain.1.countP
        (fun found => Json.null.kind = found.kind) ≤
      (Json.array [.array [.array [.null, .boolean true], .null]] ::
        (Json.array [.array [.array [.null, .boolean true], .null]]).descendants.toList.map
          Prod.snd).countP (fun found => Json.null.kind = found.kind) := by
  have helements : ∀ selector ∈ [.element none, .descent none, .slice none none (some (-1))],
      Selector.kind selector ≠ .elements := by
    simp [Selector.kind]
  have hdescent : [.element none, .descent none, .slice none none (some (-1))].countP
      (fun selector => Selector.kind selector = .descent) ≤ 1 := by
    decide
  exact ⟨helements, hdescent,
    (drain_evaluate_countP_le false _ _).2 helements hdescent
      (fun value found => value.kind = found.kind) .null⟩

end JsonSelect
