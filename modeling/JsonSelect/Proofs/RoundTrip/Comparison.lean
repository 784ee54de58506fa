import Mathlib.Tactic.Common
import JsonSelect.Proofs.Grammar.NumberWord
import JsonSelect.Proofs.RoundTrip.Quoted
import JsonSelect.Proofs.RoundTrip.Indexer

/-!
# Written comparisons are read back

What follows the path of a condition is an operator and a literal with spaces around them, or
nothing.  Both are read back when what follows the condition ends them
(`readComparison_comparisonText_append`); the exception is a floating-point literal, which may
come back as a whole number.  `EndsCondition` says what may follow: on presence only the closing
parenthesis, otherwise also a space.
-/

namespace JsonSelect

/-- What is written and read back unchanged: every name, and every literal that is no
floating-point number. -/
def writtenTerms : Terms where
  member _ _ := True
  literal value := ∀ x, value ≠ .float x

/-! ### Literals -/

/-- An integer is read back. -/
theorem readLiteral_integer {rest : List Char} (hr : EndsLiteral rest) (value : Int64) :
    readLiteral (indexText value ++ rest) = .ok (.integer value, rest) := by
  obtain ⟨c, rest, rfl, hend⟩ := hr
  have hnumber : ∀ d ∈ indexText value, isNumberChar d = true := fun d hd =>
    isNumberChar_of_isIndexChar (isIndexChar_of_mem_indexText hd)
  obtain ⟨d, more, htext, hd⟩ := exists_indexText_eq_cons value
  have hstart : ∃ d ∈ (indexText value).head?, isIndexChar d = true := by
    rw [htext]
    exact ⟨d, rfl, hd⟩
  have hplus : '+' ∉ (indexText value).head? := by
    rw [htext]
    rintro ⟨⟩
    exact absurd hd (by decide)
  have hliteral := (numberLiteral?_eq_some_iff hplus).mpr (.integer (isNumeral_indexText value))
  rw [readLiteral_number hstart hnumber hend, hliteral]
  rfl

/-- Every literal but a floating-point number is read back. -/
theorem readLiteral_text_append {value : Literal} (h : ∀ x, value ≠ .float x)
    {rest : List Char} (hr : EndsLiteral rest) :
    readLiteral (value.text ++ rest) = .ok (value, rest) := by
  cases value with
  | null => rfl
  | boolean value => cases value <;> rfl
  | integer value => exact readLiteral_integer hr value
  | float x => exact absurd rfl (h x)
  | string value => exact readLiteral_quoted value rest

/-- A literal does not start with a space. -/
theorem skipSpaces_literal_text_append {value : Literal} (h : ∀ x, value ≠ .float x)
    (rest : List Char) : skipSpaces (value.text ++ rest) = value.text ++ rest := by
  cases value with
  | null => rfl
  | boolean value => cases value <;> rfl
  | integer value => exact skipSpaces_indexText_append value rest
  | float x => exact absurd rfl (h x)
  | string value => exact skipSpaces_cons_of_ne (by decide) _

/-- A literal is written with at least one character. -/
theorem literal_text_ne_nil {value : Literal} (h : ∀ x, value ≠ .float x) :
    value.text ≠ [] := by
  cases value with
  | null => decide
  | boolean value => cases value <;> decide
  | integer value => exact indexText_ne_nil value
  | float x => exact absurd rfl (h x)
  | string value => exact List.cons_ne_nil _ _

/-! ### Conditions -/

/-- What may follow a condition: the closing parenthesis, or a space and something after it if
the condition is not on presence. -/
def EndsCondition (condition : Condition) (text : List Char) : Prop :=
  (∃ rest, text = ')' :: rest) ∨
    condition.operator ≠ .present ∧ ∃ rest, text = ' ' :: rest ∧ skipSpaces rest ≠ []

/-- What ends a condition ends its literal. -/
theorem EndsCondition.endsLiteral {condition : Condition} {text : List Char}
    (h : EndsCondition condition text) : EndsLiteral text := by
  rcases h with ⟨rest, rfl⟩ | ⟨-, rest, rfl, -⟩
  · exact ⟨')', rest, rfl, by decide⟩
  · exact ⟨' ', rest, rfl, by decide⟩

/-- After a condition there is more than spaces. -/
theorem EndsCondition.skipSpaces_ne_nil {condition : Condition} {text : List Char}
    (h : EndsCondition condition text) : skipSpaces text ≠ [] := by
  rcases h with ⟨rest, rfl⟩ | ⟨-, rest, rfl, hne⟩
  · rw [skipSpaces_cons_of_ne (by decide)]
    exact List.cons_ne_nil _ _
  · rwa [skipSpaces_space_cons]

/-- What follows the path of a condition ends that path. -/
theorem endsPath_comparisonText_append {path : List Selector} {operator : Operator}
    {literal : Option Literal} {rest : List Char}
    (hr : EndsCondition (.mk path operator literal) rest) :
    EndsPath true (comparisonText operator literal ++ rest) := by
  have hspace : ∀ text, EndsPath true (' ' :: text) := by
    rintro text c ⟨⟩
    decide
  have hparen : ∀ text, EndsPath true (')' :: text) := by
    rintro text c ⟨⟩
    decide
  by_cases hp : operator = .present
  · subst hp
    rcases hr with ⟨rest, rfl⟩ | ⟨-, rest, rfl, -⟩
    · exact hparen rest
    · exact hspace rest
  · cases operator with
    | present => exact absurd rfl hp
    | _ => exact hspace _

/-- An operator between spaces is read, and then the literal. -/
theorem readComparison_symbol {operator : Operator} (h : operator ≠ .present)
    (path : List Selector) (text : List Char) :
    readComparison path (' ' :: (operator.symbol.toList ++ ' ' :: text)) =
      if (skipSpaces text).isEmpty then .error ⟨.openFilter, []⟩
      else
        (readLiteral (skipSpaces text)).bind fun (literal, rest) =>
          if (skipSpaces rest).isEmpty then .error ⟨.openFilter, []⟩
          else .ok (.comparison path operator literal, skipSpaces rest) := by
  rw [← skipSpaces_space_cons text]
  cases operator with
  | present => exact absurd rfl h
  | _ => rfl

/-- What follows the path of a condition is read back. -/
theorem readComparison_comparisonText_append {path : List Selector} {operator : Operator}
    {literal : Option Literal} (hnone : literal = none ↔ operator = .present)
    (hwritten : ∀ value ∈ literal, writtenTerms.literal value) {rest : List Char}
    (hr : EndsCondition (.mk path operator literal) rest) :
    readComparison path (comparisonText operator literal ++ rest) =
      .ok (.mk path operator literal, skipSpaces rest) := by
  by_cases hp : operator = .present
  · obtain rfl := hnone.mpr hp
    subst hp
    rcases hr with ⟨rest, rfl⟩ | ⟨hne, -⟩
    · rfl
    · exact absurd rfl hne
  · obtain ⟨value, rfl⟩ := Option.ne_none_iff_exists'.mp (mt hnone.mp hp)
    have hvalue : ∀ x, value ≠ .float x := hwritten value rfl
    have htext : comparisonText operator (some value) ++ rest =
        ' ' :: (operator.symbol.toList ++ ' ' :: (value.text ++ rest)) := by
      cases operator with
      | present => exact absurd rfl hp
      | _ => simp [comparisonText]
    have hne : (value.text ++ rest).isEmpty = false := by
      simp [literal_text_ne_nil hvalue]
    have hmore : (skipSpaces rest).isEmpty = false := by
      simpa using hr.skipSpaces_ne_nil
    rw [htext, readComparison_symbol hp, skipSpaces_literal_text_append hvalue, hne,
      readLiteral_text_append hvalue hr.endsLiteral]
    simp [Except.bind, hmore, Condition.comparison]

end JsonSelect
