import Mathlib.Tactic.Common
import JsonSelect.Proofs.Evaluation.DepthFirst

/-!
# Strict and lenient evaluation

Strictness only cuts an evaluation short.  At a single node the outcome of a selector is one of
three (`NodeOutcome`): it finds nodes, it misses, which is an error in a strict evaluation and
nothing in a lenient one, or it is a slice that stands still, which is an error in both.
`CutShort` relates the items of the two evaluations: they go together item by item, until the
strict one may end with an error for lack of a match.  The relation is kept when items are put in
a row and when both sides are continued from, so it holds for all paths (`cutShort_pathItems`).

Conditions are tested without strictness in both evaluations, so that filters, like descents, do
not depend on it.
-/

namespace JsonSelect

/-! ### The outcome of a selector at a node -/

/-- What the events of a selector at a node can be, for both kinds of evaluation. -/
inductive NodeOutcome (events : Bool → LazyList Event) : Prop where
  /-- Some nodes are found. -/
  | found (nodes : List Json) (h : ∀ strict, events strict = foundAll nodes)
  /-- There is no match. -/
  | missing (error : EvaluationError) (hn : error.isNoMatch = true)
    (h : ∀ strict, events strict = noMatch strict error)
  /-- A slice stands still. -/
  | stuck (h : ∀ strict, events strict = .ofList [.failed .zeroStep])

/-- What they can be where no slice stands still. -/
inductive MatchOutcome (events : Bool → LazyList Event) : Prop where
  /-- Some nodes are found. -/
  | found (nodes : List Json) (h : ∀ strict, events strict = foundAll nodes)
  /-- There is no match. -/
  | missing (error : EvaluationError) (hn : error.isNoMatch = true)
    (h : ∀ strict, events strict = noMatch strict error)

/-- A match or none is an outcome of a selector at a node. -/
theorem MatchOutcome.nodeOutcome {events : Bool → LazyList Event} (h : MatchOutcome events) :
    NodeOutcome events := by
  cases h with
  | found nodes h => exact .found nodes h
  | missing error hn h => exact .missing error hn h

/-- An error for lack of a match arises in strict evaluations only. -/
theorem MatchOutcome.isNoMatch_of_mem {events : Bool → LazyList Event} (h : MatchOutcome events)
    {strict : Bool} {error : EvaluationError}
    (hmem : .error error ∈ Event.items (events strict)) :
    strict = true ∧ error.isNoMatch = true := by
  cases h with
  | found nodes h =>
    rw [h, Event.items_foundAll] at hmem
    simp at hmem
  | missing other hn h =>
    rw [h, noMatch, Event.items_ofList] at hmem
    cases strict with
    | false => simp at hmem
    | true =>
      obtain rfl : other = error := by simpa [Event.item?] using hmem
      exact ⟨rfl, hn⟩

/-- A member is found or missing. -/
theorem matchOutcome_memberEvents (name : Option String) (node : Json) :
    MatchOutcome fun strict => memberEvents strict name node := by
  cases node with
  | object members =>
    cases name with
    | none => exact .found _ fun _ => rfl
    | some name =>
      cases h : Json.member? members name with
      | none => exact .missing (.missingMember name) rfl fun _ => by simp only [memberEvents, h]
      | some value => exact .found [value] fun _ => by simp only [memberEvents, h]
  | array elements =>
    cases name with
    | none => exact .found elements fun _ => rfl
    | some name => exact .missing (.memberNotValid (some name) .array) rfl fun _ => rfl
  | _ => exact .missing (.memberNotValid name _) rfl fun _ => rfl

/-- An element is found or missing. -/
theorem matchOutcome_elementEvents (index : Option Int64) (node : Json) :
    MatchOutcome fun strict => elementEvents strict index node := by
  cases node with
  | array elements =>
    cases index with
    | none => exact .found elements fun _ => rfl
    | some index =>
      cases h : Json.element? elements index with
      | none =>
        exact .missing (.indexOutOfBounds index) rfl fun _ => by simp only [elementEvents, h]
      | some value => exact .found [value] fun _ => by simp only [elementEvents, h]
  | _ => exact .missing (.indexNotValid index _) rfl fun _ => rfl

/-- So are the elements of a slice that moves. -/
theorem matchOutcome_sliceEvents (start stop : Option Int64) {step : Option Int64}
    (hstep : step.getD 1 ≠ 0) (node : Json) :
    MatchOutcome fun strict => sliceEvents strict start stop step node := by
  cases node with
  | array elements =>
    let bounds := SliceBounds.settle elements.length start stop (step.getD 1) hstep
    by_cases hin : bounds.inRange bounds.start = true
    · refine .found (bounds.elements elements) fun strict => ?_
      simp only [sliceEvents, dif_neg hstep]
      exact if_pos hin
    · refine .missing (.emptySlice bounds.start bounds.stop) rfl fun strict => ?_
      simp only [sliceEvents, dif_neg hstep]
      exact if_neg hin
  | _ => exact .missing (.sliceNotValid _) rfl fun _ => rfl

/-- A slice has all three outcomes. -/
theorem nodeOutcome_sliceEvents (start stop step : Option Int64) (node : Json) :
    NodeOutcome fun strict => sliceEvents strict start stop step node := by
  by_cases hzero : step.getD 1 = 0
  · cases node with
    | array elements => exact .stuck fun _ => by simp only [sliceEvents, dif_pos hzero]
    | _ => exact .missing (.sliceNotValid _) rfl fun _ => rfl
  · exact (matchOutcome_sliceEvents start stop hzero node).nodeOutcome

/-! ### Items of two evaluations -/

/-- The items of a strict evaluation beside those of a lenient one: both go together, until the
strict one may fail for lack of a match. -/
inductive CutShort : List Item → List Item → Prop where
  | nil : CutShort [] []
  | ok (node : Json) {strict lenient : List Item} (hrest : CutShort strict lenient) :
    CutShort (.ok node :: strict) (.ok node :: lenient)
  /-- What follows an error of both does not matter. -/
  | error (error : EvaluationError) (strict lenient : List Item) :
    CutShort (.error error :: strict) (.error error :: lenient)
  /-- The strict evaluation ends here. -/
  | missing (error : EvaluationError) (hn : error.isNoMatch = true)
    (strict lenient : List Item) : CutShort (.error error :: strict) lenient

namespace CutShort

/-- An evaluation beside itself. -/
theorem refl (items : List Item) : CutShort items items := by
  induction items with
  | nil => exact .nil
  | cons item rest ih =>
    cases item with
    | ok node => exact .ok node ih
    | error error => exact .error error rest rest

/-- Items in a row. -/
theorem append {strict lenient strict' lenient' : List Item} (h : CutShort strict lenient)
    (h' : CutShort strict' lenient') : CutShort (strict ++ strict') (lenient ++ lenient') := by
  induction h with
  | nil => exact h'
  | ok node _ ih => exact .ok node ih
  | error error strict lenient => exact .error error _ _
  | missing error hn strict lenient => exact .missing error hn _ _

/-- The items of some elements in a row. -/
theorem flatMap {α : Type} {strict lenient : α → List Item} (elements : List α)
    (h : ∀ element, CutShort (strict element) (lenient element)) :
    CutShort (elements.flatMap strict) (elements.flatMap lenient) := by
  induction elements with
  | nil => exact .nil
  | cons element rest ih =>
    rw [List.flatMap_cons, List.flatMap_cons]
    exact (h element).append ih

/-- Continuing from the items of both evaluations. -/
theorem flatMap_continueFrom {strict lenient : List Item} {next next' : Json → List Item}
    (h : CutShort strict lenient) (hnext : ∀ node, CutShort (next node) (next' node)) :
    CutShort (strict.flatMap (continueFrom next)) (lenient.flatMap (continueFrom next')) := by
  induction h with
  | nil => exact .nil
  | ok node _ ih =>
    rw [List.flatMap_cons, List.flatMap_cons]
    exact (hnext node).append ih
  | error error strict lenient => exact .error error _ _
  | missing error hn strict lenient => exact .missing error hn _ _

/-- Either both evaluations end alike, or the strict one ends early for lack of a match. -/
theorem drained_cases {strict lenient : List Item} (h : CutShort strict lenient) :
    drained strict = drained lenient ∨
      ∃ error, (drained strict).2 = some error ∧ error.isNoMatch = true ∧
        (drained strict).1 <+: (drained lenient).1 := by
  induction h with
  | nil => exact Or.inl rfl
  | ok node _ ih =>
    rcases ih with heq | ⟨error, herror, hn, hprefix⟩
    · exact Or.inl (by rw [drained, drained, heq])
    · exact Or.inr ⟨error, herror, hn, List.prefix_cons_inj node |>.mpr hprefix⟩
  | error error strict lenient => exact Or.inl rfl
  | missing error hn strict lenient => exact Or.inr ⟨error, rfl, hn, List.nil_prefix⟩

end CutShort

/-! ### Errors among items -/

/-- The error that ends a list of items is one of them. -/
theorem mem_of_drained_snd {items : List Item} {error : EvaluationError}
    (h : (drained items).2 = some error) : .error error ∈ items := by
  induction items with
  | nil => exact absurd h (by simp [drained])
  | cons item rest ih =>
    cases item with
    | ok node => exact List.mem_cons_of_mem _ (ih h)
    | error other =>
      obtain rfl : other = error := Option.some.inj h
      exact List.mem_cons_self

/-- An error after continuing was there before, or it comes of a node. -/
theorem error_mem_flatMap_continueFrom {items : List Item} {next : Json → List Item}
    {error : EvaluationError} (h : .error error ∈ items.flatMap (continueFrom next)) :
    .error error ∈ items ∨ ∃ node, .error error ∈ next node := by
  obtain ⟨item, hitem, herror⟩ := List.mem_flatMap.mp h
  cases item with
  | ok node => exact Or.inr ⟨node, herror⟩
  | error other =>
    obtain rfl : error = other := by simpa [continueFrom] using herror
    exact Or.inl hitem

/-- What is true of every error of the selectors of a path is true of the errors of the path. -/
theorem error_of_mem_pathItems {p : EvaluationError → Prop} {strict : Bool}
    {path : List Selector} (h : ∀ selector ∈ path, ∀ node error,
      .error error ∈ selector.items strict node → p error)
    {node : Json} {error : EvaluationError} (hmem : .error error ∈ pathItems strict path node) :
    p error := by
  induction path generalizing node with
  | nil => exact absurd hmem (by simp)
  | cons selector rest ih =>
    rw [pathItems_cons] at hmem
    rcases error_mem_flatMap_continueFrom hmem with hhere | ⟨found, hfound⟩
    · exact h selector List.mem_cons_self node error hhere
    · exact ih (fun other hother => h other (List.mem_cons_of_mem _ hother)) hfound

/-! ### Selectors in both evaluations -/

namespace NodeOutcome

/-- The strict items are the lenient ones, or an error for lack of a match. -/
theorem cutShort {events : Bool → LazyList Event} (h : NodeOutcome events) :
    CutShort (Event.items (events true)) (Event.items (events false)) := by
  cases h with
  | found nodes h =>
    rw [h, h]
    exact .refl _
  | missing error hn h =>
    rw [h true]
    exact .missing error hn _ _
  | stuck h =>
    rw [h, h]
    exact .refl _

/-- An error is for lack of a match, in a strict evaluation, or that of a slice that stands
still. -/
theorem error_of_mem {events : Bool → LazyList Event} (h : NodeOutcome events) {strict : Bool}
    {error : EvaluationError} (hmem : .error error ∈ Event.items (events strict)) :
    strict = true ∧ error.isNoMatch = true ∨ error = .zeroStep := by
  cases h with
  | found nodes h => exact Or.inl ((MatchOutcome.found nodes h).isNoMatch_of_mem hmem)
  | missing other hn h => exact Or.inl ((MatchOutcome.missing other hn h).isNoMatch_of_mem hmem)
  | stuck h =>
    rw [h] at hmem
    exact Or.inr (by simpa [Event.item?] using hmem)

end NodeOutcome

namespace Selector

/-- At a single node strictness only cuts a selector short. -/
theorem cutShort_items (selector : Selector) (node : Json) :
    CutShort (selector.items true node) (selector.items false node) := by
  cases selector with
  | member name => exact (matchOutcome_memberEvents name node).nodeOutcome.cutShort
  | descent name => exact .refl _
  | element index => exact (matchOutcome_elementEvents index node).nodeOutcome.cutShort
  | elements indexes =>
    exact .flatMap indexes fun index =>
      (matchOutcome_elementEvents (some index) node).nodeOutcome.cutShort
  | slice start stop step => exact (nodeOutcome_sliceEvents start stop step node).cutShort
  | filter conditions => exact .refl _

/-- Descents and filters select the same in both evaluations. -/
theorem items_eq_of_kind {selector : Selector}
    (h : selector.kind = .descent ∨ selector.kind = .filter) (node : Json) :
    selector.items true node = selector.items false node := by
  cases selector with
  | descent name => rfl
  | filter conditions => rfl
  | member name => simp [kind] at h
  | element index => simp [kind] at h
  | elements indexes => simp [kind] at h
  | slice start stop step => simp [kind] at h

/-- Descents and filters never fail. -/
theorem error_not_mem_items_of_kind {selector : Selector}
    (h : selector.kind = .descent ∨ selector.kind = .filter) (strict : Bool) (node : Json)
    (error : EvaluationError) : .error error ∉ selector.items strict node := by
  cases selector with
  | descent name =>
    intro hmem
    cases name with
    | none => simp [items, descentEvents, Event.items, Event.item?] at hmem
    | some name => simp [items, descentEvents, Event.items, Event.item?] at hmem
  | filter conditions => simp [items]
  | member name => simp [kind] at h
  | element index => simp [kind] at h
  | elements indexes => simp [kind] at h
  | slice start stop step => simp [kind] at h

/-- The errors of a selector are for lack of a match, in strict evaluations, or that of a slice that
stands still. -/
theorem error_of_mem_items {selector : Selector} {strict : Bool} {node : Json}
    {error : EvaluationError} (hmem : .error error ∈ selector.items strict node) :
    strict = true ∧ error.isNoMatch = true ∨ error = .zeroStep := by
  cases selector with
  | member name => exact (matchOutcome_memberEvents name node).nodeOutcome.error_of_mem hmem
  | descent name => exact absurd hmem (error_not_mem_items_of_kind (Or.inl rfl) _ _ _)
  | element index => exact (matchOutcome_elementEvents index node).nodeOutcome.error_of_mem hmem
  | elements indexes =>
    obtain ⟨index, -, hindex⟩ := List.mem_flatMap.mp hmem
    exact (matchOutcome_elementEvents (some index) node).nodeOutcome.error_of_mem hindex
  | slice start stop step => exact (nodeOutcome_sliceEvents start stop step node).error_of_mem hmem
  | filter conditions => exact absurd hmem (error_not_mem_items_of_kind (Or.inr rfl) _ _ _)

/-- In a lenient evaluation only a slice that stands still is an error. -/
theorem eq_zeroStep_of_mem_items {selector : Selector} {node : Json} {error : EvaluationError}
    (hmem : .error error ∈ selector.items false node) : error = .zeroStep :=
  (error_of_mem_items hmem).resolve_left fun h => Bool.false_ne_true h.1

end Selector

/-! ### Paths in both evaluations -/

/-- Strictness only cuts the items of a path short. -/
theorem cutShort_pathItems (path : List Selector) (node : Json) :
    CutShort (pathItems true path node) (pathItems false path node) := by
  induction path generalizing node with
  | nil => exact .refl _
  | cons selector rest ih => exact (selector.cutShort_items node).flatMap_continueFrom ih

/-- Paths of selectors that do not depend on strictness do not depend on it. -/
theorem pathItems_eq_of_items_eq {path : List Selector}
    (h : ∀ selector ∈ path, ∀ node, selector.items true node = selector.items false node)
    (node : Json) : pathItems true path node = pathItems false path node := by
  induction path generalizing node with
  | nil => rfl
  | cons selector rest ih =>
    have hrest : pathItems true rest = pathItems false rest :=
      funext (ih fun other hother => h other (List.mem_cons_of_mem _ hother))
    rw [pathItems_cons, pathItems_cons, h selector List.mem_cons_self node, hrest]

/-- A strict evaluation drains to what the lenient one drains to, or it stops early with an error
for lack of a match.  Lenient evaluations never end with such an error.  Where all selectors are
descents and filters, whatever paths and conditions are inside, the two are the same and there
is no error. -/
theorem drain_evaluate_strict (path : List Selector) (root : Json) :
    ((evaluate true path root).drain = (evaluate false path root).drain ∨
      ∃ error, (evaluate true path root).drain.2 = some error ∧ error.isNoMatch = true ∧
        (evaluate true path root).drain.1 <+: (evaluate false path root).drain.1) ∧
    (∀ error, (evaluate false path root).drain.2 = some error → error.isNoMatch = false) ∧
    ((∀ selector ∈ path, selector.kind = .descent ∨ selector.kind = .filter) →
      (evaluate true path root).drain = (evaluate false path root).drain ∧
      (evaluate false path root).drain.2 = none) := by
  simp only [drain_evaluate]
  refine ⟨(cutShort_pathItems path root).drained_cases, ?_, ?_⟩
  · intro error herror
    have hzero : error = .zeroStep :=
      error_of_mem_pathItems (fun _ _ _ _ => Selector.eq_zeroStep_of_mem_items)
        (mem_of_drained_snd herror)
    rw [hzero]
    rfl
  · intro hkinds
    constructor
    · rw [pathItems_eq_of_items_eq fun selector hmem => Selector.items_eq_of_kind (hkinds _ hmem)]
    · cases herror : (drained (pathItems false path root)).2 with
      | none => rfl
      | some error =>
        have hfalse : False :=
          error_of_mem_pathItems
            (fun selector hmem => selector.error_not_mem_items_of_kind (hkinds _ hmem) false)
            (mem_of_drained_snd herror)
        exact hfalse.elim

/-- A missing element ends the strict evaluation only. -/
example :
    (evaluate true [.elements [0, 7, 1]] (.array [.null, .boolean true])).drain =
        ([.null], some (.indexOutOfBounds 7)) ∧
      (evaluate false [.elements [0, 7, 1]] (.array [.null, .boolean true])).drain =
        ([.null, .boolean true], none) :=
  ⟨rfl, rfl⟩

/-- A filter after a descent, with a member inside that most nodes lack. -/
theorem drain_evaluate_strict_descent_filter :
    (∀ selector ∈ [.descent none, .filter [.mk [.member (some "a")] .present none]],
      Selector.kind selector = .descent ∨ Selector.kind selector = .filter) ∧
    (evaluate true [.descent none, .filter [.mk [.member (some "a")] .present none]]
        (.array [.object [("a", .null)], .null])).drain =
      (evaluate false [.descent none, .filter [.mk [.member (some "a")] .present none]]
        (.array [.object [("a", .null)], .null])).drain ∧
    (evaluate false [.descent none, .filter [.mk [.member (some "a")] .present none]]
        (.array [.object [("a", .null)], .null])).drain.2 = none := by
  have hkinds : ∀ selector ∈ [.descent none, .filter [.mk [.member (some "a")] .present none]],
      Selector.kind selector = .descent ∨ Selector.kind selector = .filter := by
    simp [Selector.kind]
  exact ⟨hkinds, (drain_evaluate_strict _ _).2.2 hkinds⟩

end JsonSelect
