import Mathlib.Tactic.Common
import JsonSelect.Proofs.Grammar.ArrayIndexer

/-!
# Quoted text is read back

A text between quotes can be written in two passes over the whole of it: first every backslash gets
a backslash before it, and then every quote.  The other order would escape the backslashes of the
second pass once more.  The reader goes through the characters one by one, and so does `quoted`,
the written form; the two passes have the same result (`escape_escape`).

Reading a quoted text at a place of an expression yields exactly what is written there, in both
directions (`readQuoted_drop_eq_ok_iff`).  No other spelling of a text is accepted, and what
follows the closing quote has no influence.
-/

namespace JsonSelect

/-! ### Two passes -/

/-- Puts a backslash before every occurrence of a character. -/
def escape (c : Char) (text : List Char) : List Char :=
  text.flatMap fun d => if d = c then ['\\', d] else [d]

/-- To escape first the backslashes and then the quotes is to write character by character. -/
theorem escape_escape (text : List Char) :
    escape '\'' (escape '\\' text) = text.flatMap quoteChar := by
  rw [escape, escape, List.flatMap_assoc]
  congr 1
  funext c
  by_cases hbackslash : c = '\\'
  · subst hbackslash
    rfl
  · by_cases hquote : c = '\''
    · subst hquote
      rfl
    · simp [quoteChar, hbackslash, hquote]

/-! ### Parts of an expression -/

/-- What an expression holds from a place on is known in two parts exactly if the first part ends
at a later place and the second part starts there. -/
theorem drop_eq_append_iff {α : Type} {text part rest : List α} {start : Nat}
    (h : start ≤ text.length) :
    text.drop start = part ++ rest ↔
      ∃ stop, start ≤ stop ∧ stop ≤ text.length ∧ (text.take stop).drop start = part ∧
        text.drop stop = rest := by
  constructor
  · intro hdrop
    have hlength := congrArg List.length hdrop
    rw [List.length_drop, List.length_append] at hlength
    refine ⟨start + part.length, Nat.le_add_right _ _, by omega, ?_, ?_⟩
    · rw [List.drop_take, hdrop, Nat.add_sub_cancel_left, List.take_left]
    · rw [← List.drop_drop, hdrop, List.drop_left]
  · rintro ⟨stop, hstart, hstop, rfl, rfl⟩
    have htake : start ≤ (text.take stop).length := by
      rw [List.length_take]
      omega
    rw [← List.drop_append_of_le_length htake, List.take_append_drop]

/-! ### Literals and names -/

/-- A quoted literal is read back, whatever follows it. -/
theorem readLiteral_quoted (value : String) (rest : List Char) :
    readLiteral (quoted value.toList ++ rest) = .ok (.string value, rest) := by
  have hread : readQuoted ((quoted value.toList ++ rest).drop 1) = .ok (value.toList, rest) :=
    readQuoted_quoted_append value.toList rest
  have hquote : quoted value.toList ++ rest =
      '\'' :: (quoted value.toList ++ rest).drop 1 := rfl
  rw [hquote, readLiteral, hread]
  simp only [String.ofList_toList]

/-- A quoted name is read back, whatever follows its indexer. -/
theorem readIndexer_quoted {nested : ConditionReader} {close : Char} (hclose : IsCloser close)
    (rest : List Char) {name : String} (h : name ≠ "") :
    readIndexer nested close (quoted name.toList ++ close :: rest) =
      .ok (.member (some name), rest) := by
  have hread := readQuoted_quoted_append name.toList (close :: rest)
  have hspaces : skipSpaces (close :: rest) = close :: rest :=
    skipSpaces_cons_of_ne hclose.endsIndex.2 rest
  have hskip : skipSpaces (quoted name.toList ++ close :: rest) =
      quoted name.toList ++ close :: rest := skipSpaces_cons_of_ne (by decide) _
  have hindexer : readIndexer nested close (quoted name.toList ++ close :: rest) =
      readQuotedName close (quoted name.toList ++ close :: rest) := by
    rw [readIndexer, hskip]
    rfl
  rw [hindexer, readQuotedName, hread]
  simp [h, hspaces, closeIndexer]

/-! ### Both directions -/

/-- A text is read at a quote of an expression, up to a later place, exactly if its written form
stands between the two places; that is the form in which backslashes and then quotes are escaped.
Hence such a form is read back as a literal, and in brackets as a name if it is not empty. -/
theorem readQuoted_drop_eq_ok_iff :
    (∀ value : String, (Literal.string value).text =
      '\'' :: escape '\'' (escape '\\' value.toList) ++ ['\'']) ∧
    (∀ (expression : List Char) (start : Nat) (value : String) (rest : List Char),
      expression[start]? = some '\'' →
        (readQuoted (expression.drop (start + 1)) = .ok (value.toList, rest) ↔
          ∃ stop, start ≤ stop ∧ stop ≤ expression.length ∧
            (expression.take stop).drop start = (Literal.string value).text ∧
            expression.drop stop = rest)) ∧
    (∀ (value : String) (rest : List Char),
      readLiteral ((Literal.string value).text ++ rest) = .ok (.string value, rest)) ∧
    ∀ (nested : ConditionReader) (opening : Char) (name : String) (rest : List Char), name ≠ "" →
      readIndexer nested (closerOf opening)
          ((Literal.string name).text ++ closerOf opening :: rest) =
        .ok (.member (some name), rest) := by
  refine ⟨fun value => ?_, fun expression start value rest hquote => ?_, readLiteral_quoted,
    fun nested opening name rest hname =>
      readIndexer_quoted (isCloser_closerOf opening) rest hname⟩
  · rw [escape_escape]
    rfl
  · obtain ⟨hstart, hget⟩ := List.getElem?_eq_some_iff.mp hquote
    have hdrop : expression.drop start = '\'' :: expression.drop (start + 1) := by
      rw [List.drop_eq_getElem_cons hstart, hget]
    rw [← drop_eq_append_iff (Nat.le_of_lt hstart)]
    constructor
    · intro hread
      rw [hdrop]
      exact eq_of_readQuoted hread
    · intro hwritten
      have hbehind :
          expression.drop (start + 1) = ((Literal.string value).text ++ rest).drop 1 := by
        rw [← hwritten, hdrop]
        rfl
      rw [hbehind]
      exact readQuoted_quoted_append value.toList rest

/-- A name that holds a quote and ends with a backslash. -/
theorem readQuoted_drop_eq_ok_iff_name :
    ("$['it\\'s\\\\'].x".toList[2]? = some '\'' ∧
      readQuoted ("$['it\\'s\\\\'].x".toList.drop 3) = .ok ("it's\\".toList, "].x".toList)) ∧
    "it's\\" ≠ "" ∧
      readIndexer (conditionReader 1 1) (closerOf '[')
          ((Literal.string "it's\\").text ++ closerOf '[' :: ".x".toList) =
        .ok (.member (some "it's\\"), ".x".toList) := by
  have hquote : "$['it\\'s\\\\'].x".toList[2]? = some '\'' := by decide
  have hname : "it's\\" ≠ "" := by decide
  exact ⟨⟨hquote, (readQuoted_drop_eq_ok_iff.2.1 _ 2 "it's\\" _ hquote).mpr
      ⟨11, by decide, by decide, by decide, by decide⟩⟩,
    hname, readQuoted_drop_eq_ok_iff.2.2.2 _ '[' "it's\\" _ hname⟩

end JsonSelect
