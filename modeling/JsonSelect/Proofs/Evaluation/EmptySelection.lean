import Mathlib.Data.List.Induction
import Mathlib.Tactic.Common
import JsonSelect.Proofs.Evaluation.CompiledPath
import JsonSelect.Proofs.Evaluation.SliceRange

/-!
# Selections of nothing

In a strict evaluation a member, an index or a slice that selects nothing is an error.  Descents
and filters are not, and neither are wildcards: what a wildcard selects at an empty array or object
are its children, of which there are none (`Selector.items_eq_nil_iff`).

An evaluation yields nothing at all exactly if at some place of the path there were nodes, and the
selector at that place selected nothing at any of them without an error (`pathItems_eq_nil_iff`).
Without descents and filters the selector is a wildcard, and the nodes are empty
(`items_evaluate_strict_eq_nil_iff`).
-/

namespace JsonSelect

/-- A wildcard at an array or an object without children. -/
inductive WildcardOnEmpty : Selector → Json → Prop
  | membersOfObject : WildcardOnEmpty (.member none) (.object [])
  | membersOfArray : WildcardOnEmpty (.member none) (.array [])
  | elements : WildcardOnEmpty (.element none) (.array [])

namespace WildcardOnEmpty

/-- A wildcard finds no member exactly in the empty object. -/
theorem member_object_iff {members : List (String × Json)} :
    WildcardOnEmpty (.member none) (.object members) ↔ members = [] := by
  constructor
  · rintro ⟨⟩
    rfl
  · rintro rfl
    exact membersOfObject

/-- A wildcard for members finds no element exactly in the empty array. -/
theorem member_array_iff {elements : List Json} :
    WildcardOnEmpty (.member none) (.array elements) ↔ elements = [] := by
  constructor
  · rintro ⟨⟩
    rfl
  · rintro rfl
    exact membersOfArray

/-- A wildcard for elements finds none exactly in the empty array. -/
theorem element_array_iff {elements : List Json} :
    WildcardOnEmpty (.element none) (.array elements) ↔ elements = [] := by
  constructor
  · rintro ⟨⟩
    rfl
  · rintro rfl
    exact .elements

end WildcardOnEmpty

/-! ### Slices -/

namespace SliceBounds

/-- The word for a length is no greater than the length. -/
theorem toInt_lengthWord_bounds (length : Nat) :
    0 ≤ (lengthWord length).toInt ∧ (lengthWord length).toInt ≤ length := by
  by_cases hlength : length < 1 <<< 63
  · rw [toInt_lengthWord hlength]
    omega
  · rw [lengthWord, if_neg hlength]
    have hmax : Int64.maxValue.toInt = 2 ^ 63 - 1 := by decide
    have hshift : 1 <<< 63 = 2 ^ 63 := by decide
    omega

/-- The word before the one for a length is less than the length. -/
theorem toInt_lengthWord_sub_one_lt (length : Nat) :
    (lengthWord length - 1).toInt < length := by
  obtain ⟨hlow, hhigh⟩ := toInt_lengthWord_bounds length
  have hword := (lengthWord length).toInt_lt
  have hlast : (lengthWord length - 1).toInt = (lengthWord length).toInt - 1 := by
    rw [Int64.toInt_sub, Int64.toInt_one]
    exact Int.bmod_eq_of_le (by omega) (by omega)
  omega

/-- A slice that starts before its stop starts at a place of the array, however long that is. -/
theorem start_bounds_of_inRange {length : Nat} {start stop : Option Int64} {step : Int64}
    {hstep : step ≠ 0} {bounds : SliceBounds}
    (hbounds : settle length start stop step hstep = bounds)
    (h : bounds.inRange bounds.start = true) :
    0 ≤ bounds.start.toInt ∧ bounds.start.toInt < length := by
  obtain ⟨hfirst, hword⟩ := toInt_lengthWord_bounds length
  have hlast := toInt_lengthWord_sub_one_lt length
  have hzero : (0 : Int64).toInt = 0 := Int64.toInt_zero
  have hminus : (-1 : Int64).toInt = -1 := rfl
  have hstart : (0 : Int64).toInt ≤ (lengthWord length).toInt := by omega
  have hstop : (-1 : Int64).toInt ≤ (lengthWord length).toInt := by omega
  subst hbounds
  unfold inRange at h
  rw [settle_step] at h
  unfold settle at h ⊢
  by_cases hforward : 0 < step
  · simp only [if_pos hforward, decide_eq_true_iff] at h ⊢
    have hbefore := Int64.lt_iff_toInt_lt.mp h
    simp only [toInt_clamp hstart, toInt_clamp hstop] at hbefore ⊢
    omega
  · simp only [if_neg hforward, decide_eq_true_iff] at h ⊢
    have hbefore := Int64.lt_iff_toInt_lt.mp h
    simp only [toInt_clamp hstop, toInt_min] at hbefore ⊢
    omega

/-- There the array has an element, which is the first one of the slice. -/
theorem elements_ne_nil_of_inRange {elements : List Json} {start stop : Option Int64}
    {step : Int64} {hstep : step ≠ 0} {bounds : SliceBounds}
    (hbounds : settle elements.length start stop step hstep = bounds)
    (h : bounds.inRange bounds.start = true) : bounds.elements elements ≠ [] := by
  obtain ⟨hlow, hhigh⟩ := start_bounds_of_inRange hbounds h
  have hsign : ¬bounds.start < 0 := fun hneg => by
    have hneg : bounds.start.toInt < 0 := Int64.lt_iff_toInt_lt.mp hneg
    omega
  have hplace : bounds.start.toInt.toNat < elements.length := by omega
  have hfirst : elementAt? elements bounds.start = some elements[bounds.start.toInt.toNat] := by
    rw [elementAt?, if_neg hsign, List.getElem?_eq_getElem hplace]
  rw [elements_eq_filterMap, positions, positionsFrom_of_inRange h,
    List.filterMap_cons_some hfirst]
  exact List.cons_ne_nil _ _

end SliceBounds

/-! ### One selector -/

section

variable {terms : Terms} {inFilter : Bool} {selector : Selector}

/-- With strictness, no match is an error. -/
theorem items_noMatch_ne_nil (error : EvaluationError) :
    Event.items (noMatch true error) ≠ [] := by
  simp [noMatch, Event.item?]

/-- Nodes that are found make up no items only if there are none. -/
theorem items_foundAll_eq_nil_iff {nodes : List Json} :
    Event.items (foundAll nodes) = [] ↔ nodes = [] := by
  rw [Event.items_foundAll, List.map_eq_nil_iff]

/-- Members are silently missing only for a wildcard on an empty node. -/
theorem items_memberEvents_eq_nil_iff {name : Option String} {node : Json} :
    Event.items (memberEvents true name node) = [] ↔ WildcardOnEmpty (.member name) node := by
  cases node with
  | object members =>
    cases name with
    | none =>
      rw [memberEvents, items_foundAll_eq_nil_iff, Json.children, List.map_eq_nil_iff,
        WildcardOnEmpty.member_object_iff]
    | some name =>
      refine iff_of_false ?_ (by rintro ⟨⟩)
      rw [memberEvents]
      split
      · exact mt items_foundAll_eq_nil_iff.mp (List.cons_ne_nil _ _)
      · exact items_noMatch_ne_nil _
  | array elements =>
    cases name with
    | none =>
      rw [memberEvents, items_foundAll_eq_nil_iff, WildcardOnEmpty.member_array_iff]
    | some name => exact iff_of_false (items_noMatch_ne_nil _) (by rintro ⟨⟩)
  | _ => exact iff_of_false (items_noMatch_ne_nil _) (by rintro ⟨⟩)

/-- Elements are silently missing only for a wildcard on the empty array. -/
theorem items_elementEvents_eq_nil_iff {index : Option Int64} {node : Json} :
    Event.items (elementEvents true index node) = [] ↔ WildcardOnEmpty (.element index) node := by
  cases node with
  | array elements =>
    cases index with
    | none =>
      rw [elementEvents, items_foundAll_eq_nil_iff, WildcardOnEmpty.element_array_iff]
    | some index =>
      refine iff_of_false ?_ (by rintro ⟨⟩)
      rw [elementEvents]
      split
      · exact mt items_foundAll_eq_nil_iff.mp (List.cons_ne_nil _ _)
      · exact items_noMatch_ne_nil _
  | _ => exact iff_of_false (items_noMatch_ne_nil _) (by rintro ⟨⟩)

/-- The elements of a slice are never silently missing. -/
theorem items_sliceEvents_ne_nil (start stop step : Option Int64) (node : Json) :
    Event.items (sliceEvents true start stop step node) ≠ [] := by
  cases node with
  | array elements =>
    by_cases hstep : step.getD 1 = 0
    · simp [sliceEvents, hstep, Event.item?]
    · simp only [sliceEvents, dif_neg hstep]
      split
      · next hin =>
        exact mt items_foundAll_eq_nil_iff.mp (SliceBounds.elements_ne_nil_of_inRange rfl hin)
      · exact items_noMatch_ne_nil _
  | _ => exact items_noMatch_ne_nil _

/-- Elements that are listed are never silently missing. -/
theorem items_elements_ne_nil {indexes : List Int64} (hne : indexes ≠ []) (node : Json) :
    Selector.items true (.elements indexes) node ≠ [] := by
  obtain ⟨index, indexes, rfl⟩ := List.exists_cons_of_ne_nil hne
  intro h
  rw [Selector.items, List.flatMap_cons, List.append_eq_nil_iff,
    items_elementEvents_eq_nil_iff] at h
  cases h.1

/-- Of the selectors that can fail for lack of a match, only wildcards select nothing without an
error. -/
theorem Selector.items_eq_nil_iff (hw : selector.WellFormed terms inFilter)
    (hkind : selector.kind ≠ .descent ∧ selector.kind ≠ .filter) (node : Json) :
    selector.items true node = [] ↔ WildcardOnEmpty selector node := by
  cases selector with
  | member name => exact items_memberEvents_eq_nil_iff
  | descent name => exact absurd rfl hkind.1
  | element index => exact items_elementEvents_eq_nil_iff
  | elements indexes =>
    have hne : indexes ≠ [] := List.ne_nil_of_length_pos (Nat.lt_of_lt_of_le Nat.two_pos hw)
    exact iff_of_false (items_elements_ne_nil hne node) (by rintro ⟨⟩)
  | slice start stop step =>
    exact iff_of_false (items_sliceEvents_ne_nil start stop step node) (by rintro ⟨⟩)
  | filter conditions => exact absurd rfl hkind.2

end

/-! ### Paths -/

/-- Nothing comes up to the first error only if nothing comes at all. -/
theorem upToError_eq_nil_iff {items : List Item} : upToError items = [] ↔ items = [] := by
  rcases items with _ | ⟨_ | _, _⟩ <;> simp [upToError]

/-- Nodes are drained without an error exactly if there are only matches. -/
theorem drained_eq_iff {items : List Item} {nodes : List Json} :
    drained items = (nodes, none) ↔ items = nodes.map .ok := by
  constructor
  · intro h
    induction items generalizing nodes with
    | nil =>
      obtain rfl : [] = nodes := congrArg Prod.fst h
      rfl
    | cons item rest ih =>
      cases item with
      | ok node =>
        obtain ⟨rfl, hrest⟩ := Prod.mk.inj h
        rw [List.map_cons, ← ih (Prod.ext rfl hrest)]
      | error error => exact absurd (congrArg Prod.snd h) (Option.some_ne_none error)
  · rintro rfl
    exact drained_map_ok nodes

/-- Nothing comes of items exactly if they are matches of which nothing comes. -/
theorem flatMap_continueFrom_eq_nil_iff {items : List Item} {next : Json → List Item} :
    items.flatMap (continueFrom next) = [] ↔
      ∃ nodes : List Json, items = nodes.map .ok ∧ ∀ node ∈ nodes, next node = [] := by
  induction items with
  | nil => exact iff_of_true rfl ⟨[], rfl, List.forall_mem_nil _⟩
  | cons item rest ih =>
    rw [List.flatMap_cons, List.append_eq_nil_iff, ih]
    constructor
    · rintro ⟨hitem, nodes, rfl, hnodes⟩
      cases item with
      | ok node => exact ⟨node :: nodes, rfl, List.forall_mem_cons.mpr ⟨hitem, hnodes⟩⟩
      | error error => exact absurd hitem (List.cons_ne_nil _ _)
    · rintro ⟨_ | ⟨node, nodes⟩, hitems, hnodes⟩
      · contradiction
      · obtain ⟨rfl, rfl⟩ := List.cons.inj hitems
        obtain ⟨hnode, hnodes⟩ := List.forall_mem_cons.mp hnodes
        exact ⟨hnode, nodes, rfl, hnodes⟩

/-- A path has no items exactly if one of its selectors is applied to some nodes, without an error
so far, and has none at any of them. -/
theorem pathItems_eq_nil_iff {strict : Bool} {path : List Selector} {root : Json} :
    pathItems strict path root = [] ↔
      ∃ front selector back nodes, path = front ++ selector :: back ∧ nodes ≠ [] ∧
        pathItems strict front root = nodes.map .ok ∧
        ∀ node ∈ nodes, selector.items strict node = [] := by
  constructor
  · intro h
    induction path using List.reverseRecOn with
    | nil => exact absurd h (List.cons_ne_nil _ _)
    | append_singleton front selector ih =>
      rw [pathItems_append, flatMap_continueFrom_eq_nil_iff] at h
      obtain ⟨nodes, hfront, hnodes⟩ := h
      -- The path is empty at its last selector, or it has been so before.
      rcases eq_or_ne nodes [] with rfl | hne
      · obtain ⟨front', selector', back, nodes, rfl, h⟩ := ih hfront
        exact ⟨front', selector', back ++ [selector], nodes, by simp, h⟩
      · refine ⟨front, selector, [], nodes, rfl, hne, hfront, fun node hnode => ?_⟩
        have hselector : pathItems strict [selector] node = selector.items strict node :=
          flatMap_continueFrom_ok _
        rw [← hselector, hnodes node hnode]
  · rintro ⟨front, selector, back, nodes, rfl, -, hfront, hnodes⟩
    rw [pathItems_append, flatMap_continueFrom_eq_nil_iff]
    refine ⟨nodes, hfront, fun node hnode => ?_⟩
    rw [pathItems_cons, hnodes node hnode]
    rfl

/-- A strict evaluation of a compiled path without descents and filters yields nothing exactly if a
wildcard comes to empty arrays and objects only.  Otherwise it yields a match or an error, and an
error is for lack of a match. -/
theorem items_evaluate_strict_eq_nil_iff {limit : Nat} {expression : String}
    {path : List Selector} (h : compileWithin limit expression = .ok path)
    (hkind : ∀ selector ∈ path, selector.kind ≠ .descent ∧ selector.kind ≠ .filter)
    (root : Json) :
    ((evaluate true path root).items = [] ↔
      ∃ front wildcard back nodes, path = front ++ wildcard :: back ∧ nodes ≠ [] ∧
        (evaluate true front root).drain = (nodes, none) ∧
        ∀ node ∈ nodes, WildcardOnEmpty wildcard node) ∧
    ∀ error, .error error ∈ (evaluate true path root).items → error.isNoMatch = true := by
  obtain ⟨hw, -⟩ := wellFormed_of_compileWithin h
  constructor
  · rw [items_evaluate, upToError_eq_nil_iff, pathItems_eq_nil_iff]
    constructor
    all_goals
      rintro ⟨front, selector, back, nodes, rfl, hne, hfront, hnodes⟩
      have hmem : selector ∈ front ++ selector :: back := by simp
      refine ⟨front, selector, back, nodes, rfl, hne, ?_, fun node hnode => ?_⟩
    · rw [drain_evaluate, drained_eq_iff, hfront]
    · exact (Selector.items_eq_nil_iff (hw.of_mem hmem) (hkind selector hmem) node).mp
        (hnodes node hnode)
    · rwa [drain_evaluate, drained_eq_iff] at hfront
    · exact (Selector.items_eq_nil_iff (hw.of_mem hmem) (hkind selector hmem) node).mpr
        (hnodes node hnode)
  · intro error hmem
    have hend : (evaluate true path root).drain.2 = some error := by
      simpa [Nodes.items] using hmem
    exact (isNoMatch_of_drain_evaluate hw root hend).2

/-- Nothing comes of the elements of two empty arrays, and no member of them is asked for. -/
theorem items_evaluate_strict_elements_of_empty :
    let path : List Selector :=
      [.member (some "a"), .element none, .element none, .member (some "b")]
    let root : Json := .object [("a", .array [.array [], .array []])]
    compileWithin 32 "$.a[*][*].b" = .ok path ∧
      (∀ selector ∈ path, selector.kind ≠ .descent ∧ selector.kind ≠ .filter) ∧
      (evaluate true path root).items = [] := by
  intro path root
  have hcompile : compileWithin 32 "$.a[*][*].b" = .ok path := by
    cbv
  have hkind : ∀ selector ∈ path, selector.kind ≠ .descent ∧ selector.kind ≠ .filter := by
    simp [path, Selector.kind]
  have hfront : (evaluate true [.member (some "a"), .element none] root).drain =
      ([.array [], .array []], none) := rfl
  refine ⟨hcompile, hkind, (items_evaluate_strict_eq_nil_iff hcompile hkind root).1.mpr ?_⟩
  refine ⟨_, _, [.member (some "b")], _, rfl, List.cons_ne_nil _ _, hfront, ?_⟩
  intro node hnode
  obtain rfl : node = .array [] := by simpa using hnode
  exact .elements

/-- Nothing comes of the wildcard at the empty array, in a strict evaluation as well. -/
theorem items_evaluate_strict_wildcard_empty :
    compileWithin 32 "$[*]" = .ok [.element none] ∧
      (evaluate true [.element none] (.array [])).items = [] := by
  constructor
  · cbv
  · rfl

end JsonSelect
