import JsonSelect.Grammar.Indexer
import JsonSelect.Grammar.Literal

/-!
# Reading paths

A path is a sequence of names and indexers with dots between them. A single dot leads on to the
next part; a double dot makes the next name a descent. A name runs to the next character with a
meaning of its own, and inside a condition the characters that start an operator have one too.

A whole expression may have spaces around it and a `$` in front, after which a dot or a bracket
has to follow unless the path ends there.

How deeply filters may be nested is limited. The reader of conditions is built from the inside
out: with no level left it refuses, and with one level more it reads conditions whose paths are
read with one level less.
-/

namespace JsonSelect

/-! ### Segments -/

/-- The closer that belongs to an opener. -/
def closerOf (opening : Char) : Char :=
  if opening = '[' then ']' else ')'

/-- Whether a character can be part of a bare name. -/
def isNameChar (inFilter : Bool) (c : Char) : Bool :=
  !(['.', '[', ']', '(', ')', ' '].contains c) && !(inFilter && ['=', '<', '!', '>'].contains c)

/-- The selector for the characters of a bare name. -/
def bareName (descending : Bool) (name : List Char) : Selector :=
  .named descending (String.ofList name)

set_option linter.unusedVariables false in
/-- Reads the segments of a path, up to the end or a character that cannot be part of one. A
double dot makes the next name a descent, however many dots and indexers lie between; directly
after an indexer there can be no name. -/
def readSegments (nested : ConditionReader) (inFilter descending afterIndexer : Bool)
    (text : List Char) : Reading (List Selector) :=
  match text with
  | [] => .ok ([], [])
  | '.' :: '.' :: rest => readSegments nested inFilter true false rest
  | '.' :: rest => readSegments nested inFilter descending false rest
  | c :: rest =>
    if c = '[' ∨ c = '(' then
      match h : readIndexer nested (closerOf c) rest with
      | .error failure => .error failure
      | .ok (selector, rest') =>
        (readSegments nested inFilter descending true rest').map fun (selectors, rest) =>
          (selector :: selectors, rest)
    else if isNameChar inFilter c then
      if afterIndexer then .error ⟨.unexpectedAfterIndexer c, c :: rest⟩
      else
        (readSegments nested inFilter false false (rest.dropWhile (isNameChar inFilter))).map
          fun (selectors, rest') =>
            (bareName descending (c :: rest.takeWhile (isNameChar inFilter)) :: selectors, rest')
    else .ok ([], c :: rest)
termination_by text.length
decreasing_by
  · simp only [List.length_cons]
    omega
  · simp only [List.length_cons]
    omega
  · have progress := length_lt_of_readIndexer h
    simp only [List.length_cons]
    omega
  · have after := (List.dropWhile_sublist (p := isNameChar inFilter) (l := rest)).length_le
    simp only [List.length_cons]
    omega

/-- Reading the segments of a path leaves no more than there was. -/
theorem length_le_of_readSegments {nested : ConditionReader}
    {inFilter descending afterIndexer : Bool} {text rest : List Char} {selectors : List Selector}
    (h : readSegments nested inFilter descending afterIndexer text = .ok (selectors, rest)) :
    rest.length ≤ text.length := by
  fun_induction readSegments nested inFilter descending afterIndexer text
    generalizing selectors rest with
  | case1 =>
    obtain ⟨-, rfl⟩ := Prod.mk.inj (Except.ok.inj h)
    exact Nat.le_refl _
  | case2 descending afterIndexer r ih =>
    have further := ih h
    simp only [List.length_cons]
    omega
  | case3 descending afterIndexer r hr ih =>
    have further := ih h
    simp only [List.length_cons]
    omega
  | case4 => contradiction
  | case5 descending afterIndexer c r h₁ h₂ hc selector r' hi ih =>
    obtain ⟨⟨more, r''⟩, hs, h⟩ := map_eq_ok_iff.1 h
    obtain ⟨-, rfl⟩ := Prod.mk.inj h
    have progress := length_lt_of_readIndexer hi
    have further := ih hs
    simp only [List.length_cons]
    omega
  | case6 => contradiction
  | case7 descending afterIndexer c r h₁ h₂ hc hn ha ih =>
    obtain ⟨⟨more, r'⟩, hs, h⟩ := map_eq_ok_iff.1 h
    obtain ⟨-, rfl⟩ := Prod.mk.inj h
    have after := (List.dropWhile_sublist (p := isNameChar inFilter) (l := r)).length_le
    have further := ih hs
    simp only [List.length_cons]
    omega
  | case8 =>
    obtain ⟨-, rfl⟩ := Prod.mk.inj (Except.ok.inj h)
    exact Nat.le_refl _

/-! ### Conditions -/

/-- Reads what follows the path of a condition: nothing more before a closing parenthesis,
otherwise an operator and a literal. A space may stand after each part, and a filter cannot end
here. -/
def readComparison (path : List Selector) (text : List Char) : Reading Condition :=
  match skipSpaces text with
  | [] => .error ⟨.openFilter, []⟩
  | ')' :: rest => .ok (.presence path, ')' :: rest)
  | text =>
    (readOperator text).bind fun (operator, rest) =>
      if (skipSpaces rest).isEmpty then .error ⟨.openFilter, []⟩
      else
        (readLiteral (skipSpaces rest)).bind fun (literal, rest) =>
          if (skipSpaces rest).isEmpty then .error ⟨.openFilter, []⟩
          else .ok (.comparison path operator literal, skipSpaces rest)

/-- Reads a condition whose path is read with the given reader for the conditions inside it. -/
def readCondition (nested : ConditionReader) (text : List Char) : Reading Condition :=
  match skipSpaces text with
  | [] => .error ⟨.openFilter, []⟩
  | '@' :: rest =>
    (readSegments nested true false false rest).bind fun (path, rest) => readComparison path rest
  | c :: rest => .error ⟨.unexpectedInFilter c, c :: rest⟩

/-- Reading what follows the path of a condition leaves no more than there was. -/
theorem length_le_of_readComparison {path : List Selector} {text rest : List Char}
    {condition : Condition} (h : readComparison path text = .ok (condition, rest)) :
    rest.length ≤ text.length := by
  have before := length_skipSpaces_le text
  unfold readComparison at h
  split at h
  · contradiction
  · next r hr =>
    obtain ⟨-, rfl⟩ := Prod.mk.inj (Except.ok.inj h)
    exact hr ▸ before
  · obtain ⟨⟨operator, r₁⟩, ho, h⟩ := bind_eq_ok_iff.1 h
    dsimp only at h
    split at h
    · contradiction
    · obtain ⟨⟨literal, r₂⟩, hl, h⟩ := bind_eq_ok_iff.1 h
      dsimp only at h
      split at h
      · contradiction
      · obtain ⟨-, rfl⟩ := Prod.mk.inj (Except.ok.inj h)
        have h₁ := length_lt_of_readOperator ho
        have h₂ := length_skipSpaces_le r₁
        have h₃ := length_le_of_readLiteral hl
        have h₄ := length_skipSpaces_le r₂
        omega

/-- A condition takes up at least the `@` that starts its path. -/
theorem length_lt_of_readCondition {nested : ConditionReader} {text rest : List Char}
    {condition : Condition} (h : readCondition nested text = .ok (condition, rest)) :
    rest.length < text.length := by
  have before := length_skipSpaces_le text
  unfold readCondition at h
  split at h
  · contradiction
  · next r hr =>
    obtain ⟨⟨path, r'⟩, hs, h⟩ := bind_eq_ok_iff.1 h
    have h₁ := length_le_of_readSegments hs
    have h₂ := length_le_of_readComparison h
    rw [hr, List.length_cons] at before
    omega
  · contradiction

/-- The reader of conditions with `levels` of `limit` levels of nesting left. The reader for the
next level is made when a condition is read, so a large limit costs nothing. -/
def conditionReader (limit : Nat) : (levels : Nat) → ConditionReader
  | 0 =>
    { read := fun text => .error ⟨.tooDeep limit, text⟩
      shortens := nofun }
  | levels + 1 =>
    { read := fun text => readCondition (conditionReader limit levels) text
      shortens := length_lt_of_readCondition }

/-! ### Whole expressions -/

/-- Reads segments up to the end of an expression; only spaces may be left over. -/
def readWholePath (limit : Nat) (text : List Char) : Except Failure (List Selector) :=
  match readSegments (conditionReader limit limit) false false false text with
  | .error failure => .error failure
  | .ok (selectors, rest) =>
    match rest with
    | [] => .ok selectors
    | c :: _ =>
      if (skipSpaces rest).isEmpty then .ok selectors
      else .error ⟨.unexpectedInPath c, rest⟩

/-- Reads what follows the `$` of an expression. -/
def readAfterRoot (limit : Nat) (text : List Char) : Except Failure (List Selector) :=
  match text with
  | [] => .ok []
  | c :: _ =>
    if c = '.' ∨ c = '[' then readWholePath limit text
    else if (skipSpaces text).isEmpty then .ok []
    else .error ⟨.unexpectedInPath c, text⟩

/-- Reads an expression. -/
def readExpression (limit : Nat) (text : List Char) : Except Failure (List Selector) :=
  match skipSpaces text with
  | '$' :: rest => readAfterRoot limit rest
  | text => readWholePath limit text

/-- How deeply filters may be nested unless something else is asked for. -/
def defaultDepthLimit : Nat :=
  32

/-- The selectors of a path expression in which filters are nested at most `limit` deep. -/
def compileWithin (limit : Nat) (text : String) : Except PathError (List Selector) :=
  (readExpression limit text.toList).mapError fun failure =>
    failure.toError text.toList.length

end JsonSelect
