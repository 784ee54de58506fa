import Mathlib.Data.List.DropRight
import JsonSelect.Grammar.Path
import JsonSelect.Cursor.Trace

/-!
# The grammar with a cursor

The readers of the grammar once more, with a cursor: character by character, with positions for the
start of what is being read, accumulators for what has been read, and flags for what may follow.
Readers of indexers stop at the closer, which their caller passes without looking at it.

A reader knows no measure that goes down.  `calls` bounds how deeply calls are nested, where each
turn of a loop is a call, and a reader that has used them up has no result.  It is left to be shown
that this does not happen, and that the cursor stays in its text.
-/

namespace JsonSelect

/-- What has been seen of an array indexer: where the current index starts, the indexes before it
if there has been a comma, and the number of colons before it with the bounds between them. -/
structure ArrayProgress where
  start : Nat
  indexes? : Option (List Int64)
  colons : Nat
  bounds : Vector (Option Int64) 3

/-- Nothing has been seen. -/
def ArrayProgress.initial (start : Nat) : ArrayProgress :=
  ⟨start, none, 0, .replicate 3 none⟩

namespace Traced

/-- A reader that has used up its calls. -/
def unfinished {α : Type} : Traced α :=
  fun _ => none

/-! ### Quoted text -/

/-- Reads a quoted text behind its opening quote, of which some characters have been read. -/
def readQuotedFrom (calls : Nat) (unclosed : Cause) (read : List Char) : Traced (List Char) :=
  match calls with
  | 0 => unfinished
  | calls + 1 => do
    match ← current? with
    | none => fail unclosed
    | some c =>
      if c = '\'' then do
        advance
        return read
      else if c = '\\' then do
        advance
        match ← current? with
        | none => fail unclosed
        | some c =>
          if c = '\'' ∨ c = '\\' then do
            advance
            readQuotedFrom calls unclosed (read ++ [c])
          else fail (.unknownEscape c)
      else do
        advance
        readQuotedFrom calls unclosed (read ++ [c])

/-- Reads a quoted text from its opening quote. -/
def readQuoted (calls : Nat) (unclosed : Cause) : Traced (List Char) := do
  advance
  readQuotedFrom calls unclosed []

/-- The current character has to be the closer. -/
def stopAtCloser (close : Char) (selector : Selector) : Traced Selector := do
  let c ← ensure .openIndexer
  if c = close then return selector else fail (.unexpectedInIndexer c)

/-- Reads a quoted name from its opening quote. -/
def readQuotedName (calls : Nat) (close : Char) : Traced Selector := do
  let first ← position
  let name ← readQuoted calls .openIndexer
  if name.isEmpty then failAt .emptyIndexer first
  else do
    skipSpaces
    stopAtCloser close (.member (some (String.ofList name)))

/-! ### Array indexers -/

/-- Reads the index between two positions. -/
def readIndex (first last : Nat) : Traced Int64 := do
  if last ≤ first then failAt .indexExpected first
  else do
    let word ← textBetween first last
    match readInt64 word.toList with
    | some index => return index
    | none => failAt (.invalidIndex word) first

/-- Stores the current index, if there is one, as the bound behind as many colons. -/
def storeBound (progress : ArrayProgress) (last : Nat) : Traced (Vector (Option Int64) 3) := do
  if progress.start < last then do
    let index ← readIndex progress.start last
    record (.stored progress.colons)
    return progress.bounds.setIfInBounds progress.colons (some index)
  else return progress.bounds

/-- A slice with these bounds, which is complete at the closer. -/
def finishSlice (bounds : Vector (Option Int64) 3) : Traced Selector :=
  if bounds[2] = some 0 then fail .zeroStep
  else return .slice bounds[0] bounds[1] bounds[2]

/-- An array indexer that is complete at the closer. -/
def finishArrayIndexer (progress : ArrayProgress) (last : Nat) : Traced Selector := do
  match progress.indexes? with
  | some indexes => do
    let index ← readIndex progress.start last
    return .elements (indexes ++ [index])
  | none =>
    if 0 < progress.colons then do
      let bounds ← storeBound progress last
      finishSlice bounds
    else do
      let index ← readIndex progress.start last
      return .element (some index)

mutual

/-- Reads an array indexer, of which something has been seen.  The current index ends at `stop?`
once a space has followed it. -/
def readArrayIndexer (calls : Nat) (close : Char) (progress : ArrayProgress)
    (stop? : Option Nat) : Traced Selector :=
  match calls with
  | 0 => unfinished
  | calls + 1 => do
    match ← current? with
    | none => fail .openIndexer
    | some c =>
      let position ← position
      if c = ' ' then do
        skipSpaces
        readArrayIndexer calls close progress (some position)
      else if isIndexChar c then
        if stop?.isSome then fail (.unexpectedInIndexer c)
        else do
          advance
          readArrayIndexer calls close progress none
      else readAtDelimiter calls close progress (stop?.getD position) c
termination_by structural calls

/-- Reads on at a character that is neither a space nor part of an index. -/
def readAtDelimiter (calls : Nat) (close : Char) (progress : ArrayProgress) (last : Nat)
    (c : Char) : Traced Selector :=
  match calls with
  | 0 => unfinished
  | calls + 1 =>
    if c = close then finishArrayIndexer progress last
    else if c = ',' then
      if 0 < progress.colons then fail (.unexpectedInIndexer c)
      else do
        let index ← readIndex progress.start last
        advance
        skipSpaces
        let start ← position
        let indexes? := some (progress.indexes?.getD [] ++ [index])
        readArrayIndexer calls close { progress with start, indexes? } none
    else if c = '*' then
      if progress.indexes?.isSome ∨ 0 < progress.colons ∨ progress.start < last then
        fail (.unexpectedInIndexer c)
      else do
        advance
        let _ ← ensure .openIndexer
        skipSpaces
        stopAtCloser close (.element none)
    else if c = ':' then
      if progress.indexes?.isSome ∨ progress.colons = 2 then fail (.unexpectedInIndexer c)
      else do
        let bounds ← storeBound progress last
        advance
        skipSpaces
        let start ← position
        readArrayIndexer calls close { progress with start, colons := progress.colons + 1, bounds }
          none
    else fail (.unexpectedInIndexer c)
termination_by structural calls

end

/-! ### Operators and literals -/

/-- Reads the first of some words with which the text goes on, as what it stands for. -/
def readWord {α : Type} (cause : Cause) : List (String × α) → Traced α
  | [] => fail cause
  | (word, a) :: words => do
    if ← afterWord word then return a
    else readWord cause words

/-- The texts of the operators, in the order in which they are tried. -/
def operatorWords : List (String × Operator) :=
  [("==", .equal), ("!=", .unequal), ("<>", .unequal), ("<=", .atMost), ("<", .less),
    (">=", .atLeast), (">", .greater)]

/-- The literals that are words. -/
def literalWords : List (String × Literal) :=
  [("true", .boolean true), ("false", .boolean false), ("null", .null)]

/-- Reads an operator; the text may not end with its first character. -/
def readOperator : Traced Operator := do
  match ← peek? 1 with
  | none => fail .openFilter
  | some _ => readWord .invalidOperator operatorWords

/-- Reads a number, which started at the first position. -/
def readNumberFrom (calls : Nat) (first : Nat) : Traced Literal :=
  match calls with
  | 0 => unfinished
  | calls + 1 => do
    match ← current? with
    | none => failAt .invalidLiteral first
    | some c =>
      if isNumberChar c then do
        advance
        readNumberFrom calls first
      else do
        let last ← position
        let word ← textBetween first last
        match numberLiteral? word.toList with
        | some literal => return literal
        | none => failAt .invalidLiteral first

/-- Reads a literal. -/
def readLiteral (calls : Nat) : Traced Literal := do
  let first ← position
  match ← current? with
  | none => fail .invalidLiteral
  | some c =>
    if c = '\'' then do
      let text ← readQuoted calls .invalidLiteral
      return .string (String.ofList text)
    else if isIndexChar c then do
      advance
      readNumberFrom calls first
    else if c = 't' ∨ c = 'f' ∨ c = 'n' then readWord .invalidLiteral literalWords
    else fail .invalidLiteral

/-! ### Paths -/

/-- Adds the bare name from the first position to the cursor, if there is one, to the selectors
that have been read.  A name that is added uses up a double dot before it. -/
def addName (selectors : List Selector) (first : Nat) (descending : Bool) :
    Traced (List Selector × Bool) := do
  let last ← position
  if first < last then do
    let name ← textBetween first last
    let name := name.toList.rdropWhile (· == ' ')
    return (selectors ++ [bareName descending name], false)
  else return (selectors, descending)

/-- A path that ends at the cursor, with whether that is the end of the text. -/
def finishPath (inFilter : Bool) (selectors : List Selector) (first : Nat) (descending : Bool) :
    Traced (List Selector × Bool) := do
  let (selectors, _) ← addName selectors first descending
  let complete := (← current?).isNone
  record (.path inFilter complete)
  return (selectors, complete)

/-- Passes a single dot or a double one, and says whether it was double. -/
def passDots : Traced Bool := do
  let next? ← peek? 1
  if next? = some '.' then do
    advance
    advance
    return true
  else do
    advance
    return false

/-- Passes a connective, which is written once or twice. -/
def passConnective (c : Char) : Traced Unit := do
  advance
  if (← current?) = some c then advance
  else return ()

/-- Reads what follows the path of a condition. -/
def readComparison (calls : Nat) (path : List Selector) : Traced Condition := do
  skipSpaces
  let c ← ensure .openFilter
  if c = ')' then return .presence path
  else do
    let operator ← readOperator
    skipSpaces
    let _ ← ensure .openFilter
    let literal ← readLiteral calls
    skipSpaces
    let _ ← ensure .openFilter
    return .comparison path operator literal

/-- Reads one level deeper, and counts the depth back whether the reading succeeds or fails. -/
def deeper {α : Type} (reader : Traced α) : Traced α := fun cursor => do
  let (result, after) ← reader { cursor with depth := cursor.depth + 1 }
  return (result, { after with depth := after.depth - 1 })

/-- Records the end of a reader of conditions, whether it succeeds or fails. -/
def recordCondition (reader : Traced Condition) : Traced Condition := fun cursor => do
  let (result, after) ← reader cursor
  return (result, after.record (.condition result.isOk cursor.position cursor.depth after.depth))

mutual

/-- Reads the segments of a path, of which some selectors have been read.  A bare name may have
been started at the first position. -/
def readSegments (calls : Nat) (limit : Nat) (inFilter : Bool) (selectors : List Selector)
    (first : Nat) (descending afterIndexer : Bool) : Traced (List Selector × Bool) :=
  match calls with
  | 0 => unfinished
  | calls + 1 => do
    match ← current? with
    | none => finishPath inFilter selectors first descending
    | some c =>
      if c = '[' ∨ c = '(' then do
        let (selectors, descending) ← addName selectors first descending
        let selector ← readIndexer calls limit c
        advance
        let first ← position
        readSegments calls limit inFilter (selectors ++ [selector]) first descending true
      else if c ∈ [']', ')', ' '] then finishPath inFilter selectors first descending
      else if c = '.' then do
        let (selectors, descending) ← addName selectors first descending
        let double ← passDots
        let first ← position
        readSegments calls limit inFilter selectors first (double || descending) false
      else if inFilter = true ∧ c ∈ ['=', '<', '!', '>'] then
        finishPath inFilter selectors first descending
      else if afterIndexer then fail (.unexpectedAfterIndexer c)
      else do
        advance
        readSegments calls limit inFilter selectors first descending afterIndexer
termination_by structural calls

/-- Reads an indexer from its opener to its closer. -/
def readIndexer (calls : Nat) (limit : Nat) (opening : Char) : Traced Selector :=
  match calls with
  | 0 => unfinished
  | calls + 1 => do
    let first ← position
    advance
    let _ ← ensure .openIndexer
    skipSpaces
    let c ← ensure .openIndexer
    let start ← position
    let selector ←
      if c = '\'' then readQuotedName calls (closerOf opening)
      else if c = '?' then readFilter calls limit (closerOf opening)
      else readArrayIndexer calls (closerOf opening) (.initial start) none
    record (.indexer opening first)
    return selector
termination_by structural calls

/-- Reads a filter from its question mark to the closer. -/
def readFilter (calls : Nat) (limit : Nat) (close : Char) : Traced Selector :=
  match calls with
  | 0 => unfinished
  | calls + 1 => do
    advance
    let c ← ensure .openIndexer
    if c = '(' then do
      advance
      let conditions ← readConditions calls limit []
      let _ ← ensure .openIndexer
      skipSpaces
      stopAtCloser close (.filter conditions)
    else fail (.unexpectedInIndexer c)
termination_by structural calls

/-- Reads conditions, of which some have been read, and the closing parenthesis. -/
def readConditions (calls : Nat) (limit : Nat) (conditions : List Condition) :
    Traced (List Condition) :=
  match calls with
  | 0 => unfinished
  | calls + 1 => do
    let condition ← readCondition calls limit
    let c ← ensure .openFilter
    if c = ')' then do
      advance
      return conditions ++ [condition]
    else do
      passConnective c
      readConditions calls limit (conditions ++ [condition])
termination_by structural calls

/-- Reads a condition one level deeper, unless that is too deep. -/
def readCondition (calls : Nat) (limit : Nat) : Traced Condition :=
  match calls with
  | 0 => unfinished
  | calls + 1 => recordCondition do
    if limit ≤ (← depth) then fail (.tooDeep limit)
    else deeper (readConditionBody calls limit)
termination_by structural calls

/-- Reads a condition at the depth that has been reached. -/
def readConditionBody (calls : Nat) (limit : Nat) : Traced Condition :=
  match calls with
  | 0 => unfinished
  | calls + 1 => do
    skipSpaces
    let c ← ensure .openFilter
    if c = '@' then do
      advance
      let first ← position
      let (path, complete) ← readSegments calls limit true [] first false false
      if complete then fail .openFilter
      else readComparison calls path
    else fail (.unexpectedInFilter c)
termination_by structural calls

end

/-! ### Whole expressions -/

/-- The selectors of an expression, of which the text as a whole is taken for a report. -/
def reportPath (selectors : List Selector) : Traced (List Selector) := do
  let text := (← get).place.text
  let _ ← textBetween 0 text.length
  return selectors

/-- Reads a path to the end of the text; only spaces may be left over. -/
def readWholePath (calls : Nat) (limit : Nat) (first : Nat) : Traced (List Selector) := do
  let (selectors, complete) ← readSegments calls limit false [] first false false
  if complete then reportPath selectors
  else do
    let last ← position
    let next? ← current?
    skipSpaces
    match next?, ← current? with
    | some c, some _ => failAt (.unexpectedInPath c) last
    | _, _ => reportPath selectors

/-- Reads what follows the `$` of an expression. -/
def readAfterRoot (calls : Nat) (limit : Nat) : Traced (List Selector) := do
  let first ← position
  match ← current? with
  | none => return []
  | some c =>
    if c = '.' ∨ c = '[' then readWholePath calls limit first
    else if c = ' ' then do
      skipSpaces
      match ← current? with
      | none => return []
      | some _ => failAt (.unexpectedInPath c) first
    else fail (.unexpectedInPath c)

/-- Reads an expression. -/
def readExpression (calls : Nat) (limit : Nat) : Traced (List Selector) := do
  match ← current? with
  | none => return []
  | some _ => do
    skipSpaces
    match ← current? with
    | some '$' => do
      advance
      readAfterRoot calls limit
    | _ => do
      let first ← position
      readWholePath calls limit first

end Traced

end JsonSelect
