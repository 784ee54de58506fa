import Mathlib.Tactic.Common
import JsonSelect.Proofs.Grammar.Steps

/-!
# The written form of paths

Each path has one text that stands for it, without any space that is not needed.  A name of a
member is always quoted, a descent is always written with a double dot, and the two colons of a
slice are always there.  A condition has single spaces around its operator, and two conditions
are joined by ` && `.

The start of these texts is what tells the readers apart: a path goes on with a dot or a bracket
(`exists_pathText_eq`), and a condition starts with `@`.
-/

namespace JsonSelect

/-! ### Indexes -/

/-- The text of an index that may be missing. -/
def optionalIndexText (index : Option Int64) : List Char :=
  (index.map indexText).getD []

/-- The texts of several indexes with commas between them. -/
def indexesText : List Int64 → List Char
  | [] => []
  | [index] => indexText index
  | index :: rest => indexText index ++ ',' :: indexesText rest

/-! ### Paths -/

/-- What follows the path of a condition: an operator and a literal, or nothing. -/
def comparisonText (operator : Operator) (literal : Option Literal) : List Char :=
  match operator, literal with
  | .present, _ => []
  | operator, literal =>
    ' ' :: operator.symbol.toList ++ ' ' :: (literal.map Literal.text).getD []

mutual

/-- The text of a selector. -/
def Selector.text : Selector → List Char
  | .member none => ['.', '*']
  | .member (some name) => '[' :: quoted name.toList ++ [']']
  | .descent none => ['.', '.', '*']
  | .descent (some name) => '.' :: '.' :: name.toList
  | .element none => ['[', '*', ']']
  | .element (some index) => '[' :: indexText index ++ [']']
  | .elements indexes => '[' :: indexesText indexes ++ [']']
  | .slice start stop step =>
    '[' :: optionalIndexText start ++ ':' :: optionalIndexText stop ++ ':' ::
      optionalIndexText step ++ [']']
  | .filter conditions => '[' :: '?' :: '(' :: conditionsText conditions ++ [')', ']']
termination_by structural selector => selector

/-- The text of a path, selector after selector. -/
def pathText : List Selector → List Char
  | [] => []
  | selector :: rest => selector.text ++ pathText rest
termination_by structural path => path

/-- The text of a condition. -/
def Condition.text : Condition → List Char
  | .mk path operator literal => '@' :: pathText path ++ comparisonText operator literal
termination_by structural condition => condition

/-- The text of the conditions of a filter, joined by ` && `. -/
def conditionsText : List Condition → List Char
  | [] => []
  | condition :: rest =>
    condition.text ++ if rest.isEmpty then [] else ' ' :: '&' :: '&' :: ' ' :: conditionsText rest
termination_by structural conditions => conditions

end

@[simp] theorem pathText_nil : pathText [] = [] := rfl

/-- The text of a path is that of its first selector and of the others. -/
@[simp] theorem pathText_cons (selector : Selector) (path : List Selector) :
    pathText (selector :: path) = selector.text ++ pathText path := rfl

/-- A single condition is not joined to anything. -/
@[simp] theorem conditionsText_singleton (condition : Condition) :
    conditionsText [condition] = condition.text := by
  simp [conditionsText]

/-- Two conditions are joined. -/
@[simp] theorem conditionsText_cons_cons (condition next : Condition) (rest : List Condition) :
    conditionsText (condition :: next :: rest) =
      condition.text ++ ' ' :: '&' :: '&' :: ' ' :: conditionsText (next :: rest) := by
  simp [conditionsText]

/-! ### The first character -/

/-- A selector starts with a dot or a bracket. -/
theorem Selector.exists_text_eq (selector : Selector) :
    ∃ c rest, selector.text = c :: rest ∧ (c = '.' ∨ c = '[') := by
  rcases selector with (_ | name) | (_ | name) | (_ | index) | indexes | ⟨start, stop, step⟩ |
    conditions
  case member.none | descent.none | descent.some => exact ⟨'.', _, rfl, Or.inl rfl⟩
  all_goals exact ⟨'[', _, rfl, Or.inr rfl⟩

/-- A path that selects anything but the node it starts from starts with a dot or a bracket. -/
theorem exists_pathText_eq {path : List Selector} (h : path ≠ []) :
    ∃ c rest, pathText path = c :: rest ∧ (c = '.' ∨ c = '[') := by
  obtain ⟨selector, path, rfl⟩ := List.exists_cons_of_ne_nil h
  obtain ⟨c, rest, hc, hstart⟩ := selector.exists_text_eq
  exact ⟨c, rest ++ pathText path, by rw [pathText_cons, hc, List.cons_append], hstart⟩

/-- What follows a bare name in a written path is no part of it. -/
theorem isNameChar_head?_pathText_append {inFilter : Bool} {path : List Selector}
    {rest : List Char} (hr : EndsPath inFilter rest) :
    ∀ c ∈ (pathText path ++ rest).head?, isNameChar inFilter c = false := by
  intro c hc
  by_cases hp : path = []
  · subst hp
    exact (hr c hc).2.2.2
  · obtain ⟨d, more, htext, hstart⟩ := exists_pathText_eq hp
    rw [htext] at hc
    obtain rfl := Option.some.inj hc
    rcases hstart with rfl | rfl <;> cases inFilter <;> decide

/-- A condition starts with the `@` of its path. -/
theorem Condition.exists_text_eq (condition : Condition) :
    ∃ rest, condition.text = '@' :: rest := by
  obtain ⟨path, operator, literal⟩ := condition
  exact ⟨_, rfl⟩

end JsonSelect
