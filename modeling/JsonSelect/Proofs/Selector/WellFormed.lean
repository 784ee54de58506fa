import Mathlib.Tactic.Common
import JsonSelect.Selector.Depth
import JsonSelect.Grammar.Path

/-!
# Well-formed paths

The types of selectors and conditions admit more than a path expression can say: an empty list of
indexes, a step of zero, a comparison without a literal.  `PathWellFormed` collects what every
written path satisfies, at every level of nesting.  What it asks of the names of members and of
the literals depends on the use and is left open in `Terms`: the paths that can be written down
and read back hold no floating-point literal, those that come out of a text hold finite ones.

A bare name is one that stands in a path without quotes.  Inside a condition the characters that
start an operator cannot be part of it.
-/

namespace JsonSelect

/-! ### Bare names -/

/-- A name that can stand in a path without quotes, where it is taken for the name it is. -/
structure IsBareName (inFilter : Bool) (name : String) : Prop where
  ne_empty : name ≠ ""
  ne_wildcard : name ≠ "*"
  outside : ∀ c ∈ name.toList, c ∉ ['.', '[', ']', '(', ')', ' ']
  inside : inFilter = true → ∀ c ∈ name.toList, c ∉ ['=', '<', '!', '>']

/-- The characters of bare names are the ones that neither separate segments nor, inside a
condition, start an operator. -/
theorem isNameChar_eq_true_iff {inFilter : Bool} {c : Char} :
    isNameChar inFilter c = true ↔
      c ∉ ['.', '[', ']', '(', ')', ' '] ∧ (inFilter = true → c ∉ ['=', '<', '!', '>']) := by
  cases inFilter <;> simp [isNameChar]

/-- The wildcard is read like a name. -/
theorem isNameChar_wildcard (inFilter : Bool) : ∀ c ∈ ['*'], isNameChar inFilter c = true := by
  intro c hc
  rw [List.mem_singleton.mp hc]
  cases inFilter <;> rfl

/-- A bare name consists of name characters. -/
theorem IsBareName.isNameChar {inFilter : Bool} {name : String} (h : IsBareName inFilter name) :
    ∀ c ∈ name.toList, isNameChar inFilter c = true := by
  intro c hc
  exact isNameChar_eq_true_iff.mpr ⟨h.outside c hc, fun hf => h.inside hf c hc⟩

/-- A run of name characters that is not the wildcard is a bare name. -/
theorem isBareName_ofList {inFilter : Bool} {name : List Char} (hne : name ≠ [])
    (hw : String.ofList name ≠ "*") (hall : ∀ c ∈ name, isNameChar inFilter c = true) :
    IsBareName inFilter (String.ofList name) := by
  refine ⟨?_, hw, ?_, ?_⟩
  · intro h
    exact hne (by simpa using congrArg String.toList h)
  · intro c hc
    exact (isNameChar_eq_true_iff.mp (hall c (by simpa using hc))).1
  · intro hf c hc
    exact (isNameChar_eq_true_iff.mp (hall c (by simpa using hc))).2 hf

/-! ### Paths -/

/-- What is asked of the terms of a path, beyond what every path has to satisfy. -/
structure Terms where
  /-- Which names a member may be asked for by, outside of conditions or inside of one. -/
  member : Bool → String → Prop
  /-- Which literals a condition may compare with. -/
  literal : Literal → Prop

mutual

/-- A selector as a written path holds it. -/
def Selector.WellFormed (terms : Terms) (inFilter : Bool) : Selector → Prop
  | .member none => True
  | .member (some name) => name ≠ "" ∧ terms.member inFilter name
  | .descent none => True
  | .descent (some name) => IsBareName inFilter name
  | .element _ => True
  | .elements indexes => 2 ≤ indexes.length
  | .slice _ _ step => step ≠ some 0
  | .filter conditions => conditions ≠ [] ∧ ConditionsWellFormed terms conditions
termination_by structural selector => selector

/-- A path as it can be written, outside of conditions or inside of one. -/
def PathWellFormed (terms : Terms) (inFilter : Bool) : List Selector → Prop
  | [] => True
  | selector :: rest =>
    selector.WellFormed terms inFilter ∧ PathWellFormed terms inFilter rest
termination_by structural path => path

/-- A condition as a written path holds it: it compares with a literal exactly if it does not
ask for presence. -/
def Condition.WellFormed (terms : Terms) : Condition → Prop
  | .mk path operator literal =>
    PathWellFormed terms true path ∧ (literal = none ↔ operator = .present) ∧
      ∀ value ∈ literal, terms.literal value
termination_by structural condition => condition

/-- The conditions of a filter: after one on presence there can be no other. -/
def ConditionsWellFormed (terms : Terms) : List Condition → Prop
  | [] => True
  | condition :: rest =>
    condition.WellFormed terms ∧ (condition.operator = .present → rest = []) ∧
      ConditionsWellFormed terms rest
termination_by structural conditions => conditions

end

section

variable {terms : Terms} {inFilter : Bool} {path : List Selector} {selector : Selector}
  {conditions : List Condition} {condition : Condition}

@[simp] theorem pathWellFormed_nil : PathWellFormed terms inFilter [] := trivial

/-- A path is well formed if its first selector and the others are. -/
@[simp] theorem pathWellFormed_cons :
    PathWellFormed terms inFilter (selector :: path) ↔
      selector.WellFormed terms inFilter ∧ PathWellFormed terms inFilter path :=
  Iff.rfl

/-- A filter is well formed if it has conditions that are. -/
@[simp] theorem Selector.wellFormed_filter :
    (Selector.filter conditions).WellFormed terms inFilter ↔
      conditions ≠ [] ∧ ConditionsWellFormed terms conditions :=
  Iff.rfl

@[simp] theorem conditionsWellFormed_nil : ConditionsWellFormed terms [] := trivial

/-- Conditions are well formed if each of them is, and nothing follows a test for presence. -/
@[simp] theorem conditionsWellFormed_cons :
    ConditionsWellFormed terms (condition :: conditions) ↔
      condition.WellFormed terms ∧ (condition.operator = .present → conditions = []) ∧
        ConditionsWellFormed terms conditions :=
  Iff.rfl

end

/-- No condition of a filter is nested deeper than all of them together. -/
theorem depth_le_conditionsDepth {conditions : List Condition} {condition : Condition}
    (h : condition ∈ conditions) : condition.depth ≤ conditionsDepth conditions := by
  induction conditions with
  | nil => exact absurd h List.not_mem_nil
  | cons first conditions ih =>
    rcases List.mem_cons.mp h with rfl | h
    · exact Nat.le_max_left _ _
    · exact Nat.le_trans (ih h) (Nat.le_max_right _ _)

/-- Each selector of a path is well-formed. -/
theorem PathWellFormed.of_mem {terms : Terms} {inFilter : Bool} {path : List Selector}
    (h : PathWellFormed terms inFilter path) {selector : Selector} (hm : selector ∈ path) :
    selector.WellFormed terms inFilter := by
  induction path with
  | nil => exact absurd hm List.not_mem_nil
  | cons first path ih =>
    obtain ⟨hfirst, hrest⟩ := pathWellFormed_cons.mp h
    rcases List.mem_cons.mp hm with rfl | hm
    · exact hfirst
    · exact ih hrest hm

/-- Each condition of a filter is well-formed. -/
theorem ConditionsWellFormed.of_mem {terms : Terms} {conditions : List Condition}
    (h : ConditionsWellFormed terms conditions) {condition : Condition}
    (hm : condition ∈ conditions) : condition.WellFormed terms := by
  induction conditions with
  | nil => exact absurd hm List.not_mem_nil
  | cons first conditions ih =>
    obtain ⟨hfirst, -, hrest⟩ := conditionsWellFormed_cons.mp h
    rcases List.mem_cons.mp hm with rfl | hm
    · exact hfirst
    · exact ih hrest hm

end JsonSelect
