import Mathlib.Tactic.Common
import JsonSelect.Proofs.Grammar.ArrayIndexer
import JsonSelect.Proofs.Selector.Written

/-!
# Written array indexers are read back

An array indexer is read back from its text, whatever follows it.  Its text is one of those that
the grammar allows, the one without spaces, and all of these are read (`readIndexer_append_cons`).
-/

namespace JsonSelect

/-! ### Indexes -/

/-- An index is written as a numeral. -/
theorem isNumeral_indexText (index : Int64) : IsNumeral (indexText index) index :=
  readInt64_eq_some_iff.mp (readInt64_integerText index)

theorem indexText_ne_nil (index : Int64) : indexText index ≠ [] :=
  (isNumeral_indexText index).forall_isIndexChar.1

/-- The text of an index consists of index characters. -/
theorem isIndexChar_of_mem_indexText {index : Int64} {c : Char} (hc : c ∈ indexText index) :
    isIndexChar c = true :=
  (isNumeral_indexText index).forall_isIndexChar.2 c hc

/-- An index starts with an index character. -/
theorem exists_indexText_eq_cons (index : Int64) :
    ∃ c rest, indexText index = c :: rest ∧ isIndexChar c = true := by
  obtain ⟨c, rest, h⟩ := List.exists_cons_of_ne_nil (indexText_ne_nil index)
  exact ⟨c, rest, h, isIndexChar_of_mem_indexText (h ▸ List.mem_cons_self)⟩

/-- No space is skipped before an index. -/
theorem skipSpaces_indexText_append (index : Int64) (rest : List Char) :
    skipSpaces (indexText index ++ rest) = indexText index ++ rest := by
  obtain ⟨c, more, h, hc⟩ := exists_indexText_eq_cons index
  rw [h, List.cons_append, skipSpaces_cons_of_ne (ne_of_isIndexChar hc).1]

/-- The text of an index is one of its texts. -/
theorem isIndex_indexText (index : Int64) : IsIndex (indexText index) index :=
  ⟨[], indexText index, [], by simp, List.forall_mem_nil _, isNumeral_indexText index,
    List.forall_mem_nil _⟩

/-- So is that of an index that may be missing. -/
theorem isOptionalIndex_optionalIndexText (index : Option Int64) :
    IsOptionalIndex (optionalIndexText index) index := by
  cases index with
  | none => exact List.forall_mem_nil _
  | some index => exact isIndex_indexText index

/-- The text of several indexes is one of their texts. -/
theorem areIndexes_indexesText {indexes : List Int64} (h : indexes ≠ []) :
    AreIndexes (indexesText indexes) indexes := by
  fun_induction indexesText indexes with
  | case1 => contradiction
  | case2 index => exact .single (isIndex_indexText index)
  | case3 index rest hrest ih => exact .comma (isIndex_indexText index) (ih hrest)

/-! ### Indexers -/

section

variable {nested : ConditionReader} (rest : List Char)

/-- The wildcard is read back. -/
theorem readIndexer_wildcard :
    readIndexer nested ']' ('*' :: ']' :: rest) = .ok (.element none, rest) :=
  readIndexer_append_cons isCloser_bracket rest nested
    (.wildcard (List.forall_mem_nil _) (List.forall_mem_nil _))

/-- A single index is read back. -/
theorem readIndexer_element (index : Int64) :
    readIndexer nested ']' (indexText index ++ ']' :: rest) = .ok (.element (some index), rest) :=
  readIndexer_append_cons isCloser_bracket rest nested (.index (isIndex_indexText index))

/-- A list of at least two indexes is read back. -/
theorem readIndexer_elements {indexes : List Int64} (h : 2 ≤ indexes.length) :
    readIndexer nested ']' (indexesText indexes ++ ']' :: rest) =
      .ok (.elements indexes, rest) := by
  have hne : indexes ≠ [] := List.length_pos_iff.mp (Nat.lt_of_lt_of_le Nat.zero_lt_two h)
  exact readIndexer_append_cons isCloser_bracket rest nested (.list h (areIndexes_indexesText hne))

/-- A slice is read back. -/
theorem readIndexer_slice (start stop : Option Int64) {step : Option Int64}
    (h : step ≠ some 0) :
    readIndexer nested ']' (optionalIndexText start ++ ':' ::
        (optionalIndexText stop ++ ':' :: (optionalIndexText step ++ ']' :: rest))) =
      .ok (.slice start stop step, rest) := by
  have hslice : IsArrayIndexer
      (optionalIndexText start ++ ':' :: (optionalIndexText stop ++ ':' :: optionalIndexText step))
      (.slice start stop step) :=
    .slice (isOptionalIndex_optionalIndexText start)
      (.step (isOptionalIndex_optionalIndexText stop) (isOptionalIndex_optionalIndexText step) h)
  have hread := readIndexer_append_cons isCloser_bracket rest nested hslice
  simpa using hread

end

end JsonSelect
