import Mathlib.Tactic.Common
import JsonSelect.Evaluation.Nodes

/-!
# Items

Without its notes an evaluation is a list of items: nodes that are found, and errors.  A sequence
of nodes yields the items up to the first error, which is included (`upToError`).  This module
relates the two ways in which events are consumed to their items: all at once
(`drain_eq_drained`) and in search of an acceptable node (`search_eq_any`).

`continueFrom` is how one selector follows another on items: a node is replaced by what comes of
it, an error stays where it is.
-/

namespace JsonSelect

/-- What an evaluation yields: a node that is found, or an error. -/
abbrev Item := Except EvaluationError Json

/-! ### Items of events -/

/-- The item that an event stands for; a note is none. -/
def Event.item? : Event → Option Item
  | .note _ => none
  | .found node => some (.ok node)
  | .failed error => some (.error error)

/-- All items of a sequence of events, in their order. -/
def Event.items (events : LazyList Event) : List Item :=
  events.toList.filterMap Event.item?

/-- What becomes of an item when the next selector is applied to its node. -/
def continueFrom (next : Json → List Item) : Item → List Item
  | .ok node => next node
  | .error error => [.error error]

/-- Continuing with the node itself changes nothing. -/
theorem flatMap_continueFrom_ok (items : List Item) :
    items.flatMap (continueFrom fun node => [.ok node]) = items := by
  induction items with
  | nil => rfl
  | cons item rest ih =>
    rw [List.flatMap_cons, ih]
    cases item <;> rfl

/-- Continuing twice is continuing with what continues. -/
theorem flatMap_continueFrom_flatMap (items : List Item) (first second : Json → List Item) :
    (items.flatMap (continueFrom first)).flatMap (continueFrom second) =
      items.flatMap (continueFrom fun node => (first node).flatMap (continueFrom second)) := by
  rw [List.flatMap_assoc]
  congr 1
  funext item
  cases item with
  | ok node => rfl
  | error error => simp [continueFrom]

/-- The nodes that pass a test, as items. -/
theorem flatMap_ite_ok (p : Json → Bool) (nodes : List Json) :
    (nodes.flatMap fun node => if p node then [(.ok node : Item)] else []) =
      (nodes.filter p).map .ok := by
  induction nodes with
  | nil => rfl
  | cons node rest ih =>
    rw [List.flatMap_cons, ih, List.filter_cons]
    cases p node <;> rfl

namespace Event

@[simp] theorem items_nil : items .nil = [] := rfl

/-- The item of the first event, if it has one, comes before the others. -/
@[simp] theorem items_cons (event : Event) (rest : Unit → LazyList Event) :
    items (.cons event rest) = event.item?.toList ++ items (rest ()) := by
  cases event <;> simp [items, item?, List.filterMap_cons]

@[simp] theorem items_ofList (events : List Event) :
    items (.ofList events) = events.filterMap item? := by
  rw [items, LazyList.toList_ofList]

@[simp] theorem items_append (events : LazyList Event) (next : Unit → LazyList Event) :
    items (events.append next) = items events ++ items (next ()) := by
  rw [items, LazyList.toList_append, List.filterMap_append]
  rfl

/-- Nodes that are found are matches. -/
theorem items_foundAll (nodes : List Json) : items (foundAll nodes) = nodes.map .ok := by
  rw [foundAll, items_ofList, List.filterMap_map, ← List.filterMap_eq_map]
  rfl

/-- The items of what comes of some elements, one after the other. -/
theorem items_flatMap {α : Type} (next : α → LazyList Event) (source : LazyList α) :
    items (source.flatMap next) = source.toList.flatMap fun element => items (next element) := by
  rw [items, LazyList.toList_flatMap, List.filterMap_flatMap]
  rfl

/-- Expanding the nodes of some events continues from their items. -/
theorem items_expand (next : Json → LazyList Event) (events : LazyList Event) :
    items (expand next events) =
      (items events).flatMap (continueFrom fun node => items (next node)) := by
  rw [expand, items_flatMap, items]
  induction events.toList with
  | nil => rfl
  | cons event rest ih =>
    rw [List.flatMap_cons, ih, List.filterMap_cons]
    cases event <;> simp [item?, continueFrom]

end Event

/-! ### Up to the first error -/

/-- The items up to the first error, which is included. -/
def upToError : List Item → List Item
  | [] => []
  | .ok node :: rest => .ok node :: upToError rest
  | .error error :: _ => [.error error]

/-- The nodes before the first error, and that error. -/
def drained : List Item → List Json × Option EvaluationError
  | [] => ([], none)
  | .ok node :: rest => (node :: (drained rest).1, (drained rest).2)
  | .error error :: _ => ([], some error)

/-- Matches, followed by at most one error. -/
theorem upToError_eq (items : List Item) :
    upToError items = (drained items).1.map .ok ++ ((drained items).2.map .error).toList := by
  induction items with
  | nil => rfl
  | cons item rest ih =>
    cases item with
    | ok node => rw [upToError, ih]; rfl
    | error error => rfl

/-- What comes behind the first error is never drained. -/
@[simp] theorem drained_upToError (items : List Item) :
    drained (upToError items) = drained items := by
  induction items with
  | nil => rfl
  | cons item rest ih =>
    cases item with
    | ok node => rw [upToError, drained, drained, ih]
    | error error => rfl

/-- Up to the first error there is nothing more to leave out. -/
@[simp] theorem upToError_upToError (items : List Item) :
    upToError (upToError items) = upToError items := by
  rw [upToError_eq (upToError items), drained_upToError, ← upToError_eq]

/-- Where there is no error, all nodes are drained. -/
@[simp] theorem drained_map_ok (nodes : List Json) : drained (nodes.map .ok) = (nodes, none) := by
  induction nodes with
  | nil => rfl
  | cons node rest ih => rw [List.map_cons, drained, ih]

/-- Of two lists of items in a row, each matters only up to its own first error. -/
theorem upToError_append (items more : List Item) :
    upToError (items ++ more) = upToError (upToError items ++ upToError more) := by
  induction items with
  | nil => exact (upToError_upToError more).symm
  | cons item rest ih =>
    cases item with
    | ok node => rw [List.cons_append, upToError, upToError, ih]; rfl
    | error error => rfl

/-- The same of any number of lists in a row. -/
theorem upToError_flatMap {α : Type} (elements : List α) (items : α → List Item) :
    upToError (elements.flatMap items) =
      upToError (elements.flatMap fun element => upToError (items element)) := by
  induction elements with
  | nil => rfl
  | cons element rest ih =>
    rw [List.flatMap_cons, upToError_append, ih, List.flatMap_cons,
      upToError_append (upToError (items element)) (List.flatMap _ _), upToError_upToError]

/-- What continues from items matters only up to the first error, and so do the items. -/
theorem upToError_flatMap_continueFrom (items : List Item) (next : Json → List Item) :
    upToError (items.flatMap (continueFrom next)) =
      upToError ((upToError items).flatMap (continueFrom fun node => upToError (next node))) := by
  induction items with
  | nil => rfl
  | cons item rest ih =>
    cases item with
    | ok node =>
      rw [upToError, List.flatMap_cons, List.flatMap_cons, upToError_append, ih,
        upToError_append (continueFrom (fun node => upToError (next node)) (.ok node))]
      simp [continueFrom]
    | error error => rfl

/-! ### Consuming events -/

namespace Event

/-- Draining events gives the nodes and the error of their items. -/
theorem drain_eq_drained (events : LazyList Event) : drain events = drained (items events) := by
  unfold drain upToFailure
  induction events with
  | nil => rfl
  | cons event rest ih =>
    have htail := ih ()
    rw [items_cons, LazyList.filter_cons]
    cases event with
    | note entry => exact htail
    | found node =>
      simp only [item?, Option.toList_some, List.singleton_append, drained, ← htail]
      simp [note?, node?, error?, isFailure, LazyList.upTo_cons, List.findSome?_cons]
    | failed error =>
      simp [item?, note?, node?, error?, isFailure, LazyList.upTo_cons, drained]

/-- A search succeeds if an acceptable node comes before the first error. -/
theorem search_eq_any (accepts : Json → Bool) (events : LazyList Event) :
    (search accepts events).2 = (drained (items events)).1.any accepts := by
  unfold search
  induction events with
  | nil => rfl
  | cons event rest ih =>
    have htail := ih ()
    rw [items_cons, LazyList.filter_cons]
    cases event with
    | note entry =>
      simp only [item?, Option.toList_none, List.nil_append, ← htail]
      simp [note?, node?, LazyList.upTo_cons]
    | found node =>
      simp only [item?, Option.toList_some, List.singleton_append, drained, List.any_cons,
        ← htail]
      -- the node is passed over, or it decides the search
      cases h : accepts node with
      | true => simp [note?, node?, LazyList.upTo_cons, h]
      | false => simp [note?, node?, h]
    | failed error =>
      simp [item?, note?, node?, LazyList.upTo_cons, drained]

end Event

end JsonSelect
