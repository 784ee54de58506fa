import JsonSelect.Selector.Basic
import JsonSelect.Grammar.Reading

/-!
# Reading indexers

An indexer stands between brackets or parentheses; its closer has to match its opener. It holds a
quoted name, a filter, or an array indexer: `*`, an index, a list of indexes, or a slice. Spaces
may stand around each of its parts, but not inside a number.

The functions here read from the character after the opener and return with the characters after
the closer.

A filter holds conditions, whose paths hold indexers again. The conditions are read by a reader
that is handed in, a `ConditionReader`; it is known to consume at least one character.
-/

namespace JsonSelect

/-- Refuses the next character of an indexer, or its end. -/
def refuseInIndexer {α : Type} : List Char → Reading α
  | [] => .error ⟨.openIndexer, []⟩
  | c :: rest => .error ⟨.unexpectedInIndexer c, c :: rest⟩

/-- The closer of an indexer has to come next, after which the selector is complete. -/
def closeIndexer (close : Char) (selector : Selector) (text : List Char) : Reading Selector :=
  match text with
  | c :: rest => if c = close then .ok (selector, rest) else refuseInIndexer text
  | [] => refuseInIndexer text

/-! ### Array indexers -/

/-- Whether a character can be part of an index. -/
def isIndexChar (c : Char) : Bool :=
  c.isDigit || c = '-'

/-- The index characters at the front. -/
def indexWord (text : List Char) : List Char :=
  text.takeWhile isIndexChar

/-- What follows the index characters at the front and the spaces after them. -/
def afterIndexWord (text : List Char) : List Char :=
  skipSpaces (text.dropWhile isIndexChar)

/-- The index whose characters stand at the front. -/
def readIndex (text : List Char) : Except Failure Int64 :=
  let word := indexWord text
  if word.isEmpty then .error ⟨.indexExpected, text⟩
  else
    match readInt64 word with
    | some index => .ok index
    | none => .error ⟨.invalidIndex (String.ofList word), text⟩

/-- The index whose characters stand at the front, if there are any. -/
def readOptionalIndex (text : List Char) : Except Failure (Option Int64) :=
  if (indexWord text).isEmpty then .ok none else (readIndex text).map some

/-- Passing an index and spaces leaves no more than there was. -/
theorem length_afterIndexWord_le (text : List Char) :
    (afterIndexWord text).length ≤ text.length :=
  Nat.le_trans (length_skipSpaces_le _) (List.dropWhile_sublist _).length_le

set_option linter.unusedVariables false in
/-- Reads the indexes of a list, from one of them to the closer. -/
def readIndexes (close : Char) (text : List Char) : Reading (List Int64) :=
  match h : afterIndexWord text with
  | [] => refuseInIndexer []
  | c :: rest =>
    if c = close then
      (readIndex text).map fun index => ([index], rest)
    else if c = ',' then
      (readIndex text).bind fun index =>
        (readIndexes close (skipSpaces rest)).map fun (indexes, rest) => (index :: indexes, rest)
    else refuseInIndexer (c :: rest)
termination_by text.length
decreasing_by
  have before := length_afterIndexWord_le text
  have after := length_skipSpaces_le rest
  simp only [h, List.length_cons] at before
  omega

/-- Reads the step of a slice and the closer. -/
def readStep (close : Char) (start stop : Option Int64) (text : List Char) : Reading Selector :=
  match afterIndexWord text with
  | [] => refuseInIndexer []
  | c :: rest =>
    if c = close then
      (readOptionalIndex text).bind fun step =>
        if step = some 0 then .error ⟨.zeroStep, c :: rest⟩
        else .ok (.slice start stop step, rest)
    else refuseInIndexer (c :: rest)

/-- Reads the end of a slice, after which there may be a step, and the closer. -/
def readStop (close : Char) (start : Option Int64) (text : List Char) : Reading Selector :=
  match afterIndexWord text with
  | [] => refuseInIndexer []
  | c :: rest =>
    if c = close then
      (readOptionalIndex text).map fun stop => (.slice start stop none, rest)
    else if c = ':' then
      (readOptionalIndex text).bind fun stop => readStep close start stop (skipSpaces rest)
    else refuseInIndexer (c :: rest)

/-- Reads an array indexer. What follows its first index, if it has one, tells an index, a list
and a slice apart. -/
def readArrayIndexer (close : Char) (text : List Char) : Reading Selector :=
  match afterIndexWord text with
  | [] => refuseInIndexer []
  | c :: rest =>
    if c = close then
      (readIndex text).map fun index => (.element (some index), rest)
    else if c = ',' then
      (readIndex text).bind fun index =>
        (readIndexes close (skipSpaces rest)).map fun (indexes, rest) =>
          (.elements (index :: indexes), rest)
    else if c = ':' then
      (readOptionalIndex text).bind fun start => readStop close start (skipSpaces rest)
    else if c = '*' ∧ (indexWord text).isEmpty then
      closeIndexer close (.element none) (skipSpaces rest)
    else refuseInIndexer (c :: rest)

/-! ### Quoted names -/

/-- Reads a quoted name from its opening quote to the closer. -/
def readQuotedName (close : Char) (text : List Char) : Reading Selector :=
  match readQuoted (text.drop 1) with
  | .ok (name, rest) =>
    if name.isEmpty then .error ⟨.emptyIndexer, text⟩
    else closeIndexer close (.member (some (String.ofList name))) (skipSpaces rest)
  | .error .unclosed => .error ⟨.openIndexer, []⟩
  | .error (.unknownEscape c rest) => .error ⟨.unknownEscape c, rest⟩

/-! ### Filters -/

/-- A reader of conditions that always makes progress. -/
structure ConditionReader where
  read : List Char → Reading Condition
  shortens : ∀ {text condition rest},
    read text = .ok (condition, rest) → rest.length < text.length

/-- Drops the rest of a connective: it is written once or twice. Which character it is does not
matter, all conditions of a filter have to hold. -/
def afterConnective (c : Char) (rest : List Char) : List Char :=
  if rest.head? = some c then rest.tail else rest

/-- Passing a connective leaves no more than there was. -/
theorem length_afterConnective_le (c : Char) (rest : List Char) :
    (afterConnective c rest).length ≤ rest.length := by
  unfold afterConnective
  split
  · exact (List.tail_sublist rest).length_le
  · exact Nat.le_refl _

set_option linter.unusedVariables false in
/-- Reads conditions with connectives between them, up to the closing parenthesis. -/
def readConditions (nested : ConditionReader) (text : List Char) : Reading (List Condition) :=
  match h : nested.read text with
  | .error failure => .error failure
  | .ok (condition, []) => .error ⟨.openFilter, []⟩
  | .ok (condition, c :: rest) =>
    if c = ')' then .ok ([condition], rest)
    else
      (readConditions nested (afterConnective c rest)).map fun (conditions, rest) =>
        (condition :: conditions, rest)
termination_by text.length
decreasing_by
  have progress := nested.shortens h
  have after := length_afterConnective_le c rest
  simp only [List.length_cons] at progress
  omega

/-- Reads a filter after its question mark, to the closer. -/
def readFilter (nested : ConditionReader) (close : Char) (text : List Char) : Reading Selector :=
  match text with
  | '(' :: rest =>
    (readConditions nested rest).bind fun (conditions, rest) =>
      closeIndexer close (.filter conditions) (skipSpaces rest)
  | _ => refuseInIndexer text

/-! ### Indexers -/

/-- Reads an indexer whose closer is the given character. -/
def readIndexer (nested : ConditionReader) (close : Char) (text : List Char) : Reading Selector :=
  match skipSpaces text with
  | [] => .error ⟨.openIndexer, []⟩
  | '\'' :: rest => readQuotedName close ('\'' :: rest)
  | '?' :: rest => readFilter nested close rest
  | text => readArrayIndexer close text

/-! ### Progress -/

/-- A refusal is no success. -/
theorem refuseInIndexer_ne_ok {α : Type} (text : List Char) (result : α × List Char) :
    refuseInIndexer text ≠ .ok result := by
  cases text <;> simp [refuseInIndexer]

/-- Closing an indexer takes at least the closer. -/
theorem length_lt_of_closeIndexer {close : Char} {expected selector : Selector}
    {text rest : List Char} (h : closeIndexer close expected text = .ok (selector, rest)) :
    rest.length < text.length := by
  unfold closeIndexer at h
  split at h
  · split at h
    · obtain ⟨-, rfl⟩ := Prod.mk.inj (Except.ok.inj h)
      exact Nat.lt_succ_self _
    · exact absurd h (refuseInIndexer_ne_ok _ _)
  · exact absurd h (refuseInIndexer_ne_ok _ _)

/-- What follows the first delimiter after an index is shorter than the whole. -/
theorem length_lt_of_afterIndexWord {text rest : List Char} {c : Char}
    (h : afterIndexWord text = c :: rest) : rest.length < text.length := by
  have before := length_afterIndexWord_le text
  rw [h, List.length_cons] at before
  exact before

/-- Reading indexes takes at least the closer. -/
theorem length_lt_of_readIndexes {close : Char} {text rest : List Char} {indexes : List Int64}
    (h : readIndexes close text = .ok (indexes, rest)) : rest.length < text.length := by
  fun_induction readIndexes close text generalizing indexes rest with
  | case1 => exact absurd h (refuseInIndexer_ne_ok _ _)
  | case2 text r hr =>
    obtain ⟨index, -, h⟩ := map_eq_ok_iff.1 h
    obtain ⟨-, rfl⟩ := Prod.mk.inj h
    exact length_lt_of_afterIndexWord hr
  | case3 text r hr hc ih =>
    obtain ⟨index, -, h⟩ := bind_eq_ok_iff.1 h
    obtain ⟨⟨more, r'⟩, hm, h⟩ := map_eq_ok_iff.1 h
    obtain ⟨-, rfl⟩ := Prod.mk.inj h
    have before := length_lt_of_afterIndexWord hr
    have after := length_skipSpaces_le r
    have further := ih hm
    omega
  | case4 => exact absurd h (refuseInIndexer_ne_ok _ _)

/-- Reading the step of a slice takes at least the closer. -/
theorem length_lt_of_readStep {close : Char} {start stop : Option Int64} {text rest : List Char}
    {selector : Selector} (h : readStep close start stop text = .ok (selector, rest)) :
    rest.length < text.length := by
  unfold readStep at h
  split at h
  · exact absurd h (refuseInIndexer_ne_ok _ _)
  · next c r hr =>
    split at h
    · obtain ⟨step, -, h⟩ := bind_eq_ok_iff.1 h
      split at h
      · contradiction
      · obtain ⟨-, rfl⟩ := Prod.mk.inj (Except.ok.inj h)
        exact length_lt_of_afterIndexWord hr
    · exact absurd h (refuseInIndexer_ne_ok _ _)

/-- Reading the end of a slice takes at least the closer. -/
theorem length_lt_of_readStop {close : Char} {start : Option Int64} {text rest : List Char}
    {selector : Selector} (h : readStop close start text = .ok (selector, rest)) :
    rest.length < text.length := by
  unfold readStop at h
  split at h
  · exact absurd h (refuseInIndexer_ne_ok _ _)
  · next c r hr =>
    have before := length_lt_of_afterIndexWord hr
    split at h
    · obtain ⟨stop, -, h⟩ := map_eq_ok_iff.1 h
      obtain ⟨-, rfl⟩ := Prod.mk.inj h
      exact before
    · split at h
      · obtain ⟨stop, -, h⟩ := bind_eq_ok_iff.1 h
        have after := length_skipSpaces_le r
        have further := length_lt_of_readStep h
        omega
      · exact absurd h (refuseInIndexer_ne_ok _ _)

/-- Reading an array indexer takes at least the closer. -/
theorem length_lt_of_readArrayIndexer {close : Char} {text rest : List Char}
    {selector : Selector} (h : readArrayIndexer close text = .ok (selector, rest)) :
    rest.length < text.length := by
  unfold readArrayIndexer at h
  split at h
  · exact absurd h (refuseInIndexer_ne_ok _ _)
  · next c r hr =>
    have before := length_lt_of_afterIndexWord hr
    have after := length_skipSpaces_le r
    split at h
    · obtain ⟨index, -, h⟩ := map_eq_ok_iff.1 h
      obtain ⟨-, rfl⟩ := Prod.mk.inj h
      exact before
    · split at h
      · obtain ⟨index, -, h⟩ := bind_eq_ok_iff.1 h
        obtain ⟨⟨more, r'⟩, hm, h⟩ := map_eq_ok_iff.1 h
        obtain ⟨-, rfl⟩ := Prod.mk.inj h
        have further := length_lt_of_readIndexes hm
        omega
      · split at h
        · obtain ⟨start, -, h⟩ := bind_eq_ok_iff.1 h
          have further := length_lt_of_readStop h
          omega
        · split at h
          · have further := length_lt_of_closeIndexer h
            omega
          · exact absurd h (refuseInIndexer_ne_ok _ _)

/-- Reading a quoted name takes at least the closer. -/
theorem length_lt_of_readQuotedName {close : Char} {text rest : List Char} {selector : Selector}
    (h : readQuotedName close text = .ok (selector, rest)) : rest.length < text.length := by
  unfold readQuotedName at h
  split at h
  · next name r hr =>
    have before := length_lt_of_readQuoted hr
    have after := length_skipSpaces_le r
    split at h
    · contradiction
    · have further := length_lt_of_closeIndexer h
      rw [List.length_drop] at before
      omega
  · contradiction
  · contradiction

/-- Reading conditions takes at least the closing parenthesis. -/
theorem length_lt_of_readConditions {nested : ConditionReader} {text rest : List Char}
    {conditions : List Condition} (h : readConditions nested text = .ok (conditions, rest)) :
    rest.length < text.length := by
  fun_induction readConditions nested text generalizing conditions rest with
  | case1 => contradiction
  | case2 => contradiction
  | case3 text condition r hn =>
    have progress := nested.shortens hn
    obtain ⟨-, rfl⟩ := Prod.mk.inj (Except.ok.inj h)
    exact Nat.lt_of_succ_lt progress
  | case4 text condition c r hn hc ih =>
    obtain ⟨⟨more, r'⟩, hm, h⟩ := map_eq_ok_iff.1 h
    obtain ⟨-, rfl⟩ := Prod.mk.inj h
    have progress := nested.shortens hn
    have after := length_afterConnective_le c r
    have further := ih hm
    rw [List.length_cons] at progress
    omega

/-- Reading a filter takes at least the closer. -/
theorem length_lt_of_readFilter {nested : ConditionReader} {close : Char} {text rest : List Char}
    {selector : Selector} (h : readFilter nested close text = .ok (selector, rest)) :
    rest.length < text.length := by
  unfold readFilter at h
  split at h
  · next r =>
    obtain ⟨⟨conditions, r'⟩, hm, h⟩ := bind_eq_ok_iff.1 h
    have before := length_lt_of_readConditions hm
    have after := length_skipSpaces_le r'
    have further := length_lt_of_closeIndexer h
    rw [List.length_cons]
    omega
  · exact absurd h (refuseInIndexer_ne_ok _ _)

/-- An indexer takes up at least its closer. -/
theorem length_lt_of_readIndexer {nested : ConditionReader} {close : Char}
    {text rest : List Char} {selector : Selector}
    (h : readIndexer nested close text = .ok (selector, rest)) : rest.length < text.length := by
  have before := length_skipSpaces_le text
  unfold readIndexer at h
  split at h
  · contradiction
  · next r hr =>
    have further := length_lt_of_readQuotedName h
    rw [hr] at before
    omega
  · next r hr =>
    have further := length_lt_of_readFilter h
    rw [hr, List.length_cons] at before
    omega
  · have further := length_lt_of_readArrayIndexer h
    omega

end JsonSelect
