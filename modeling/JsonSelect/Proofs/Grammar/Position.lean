import Mathlib.Tactic.Common
import JsonSelect.Proofs.Grammar.Within

/-!
# Errors point at what they name

An error names a cause and a position.  `Cause.PointsAt` says what has to stand at the position for
the cause to be right: the character that was refused, the word that is no index, the two quotes
of an empty name, or the end of the text.

Readers do not know positions, only the characters that remain where a failure is noticed, so
that each of them is checked against the same condition on these (`Failure.InPlace`).  The
condition passes through the ways in which readers are put together, as `EndsWithin` does, and is
turned into one on positions at the very end (`Failure.pointsAt_of_inPlace`).
-/

namespace JsonSelect

variable {α β : Type} {limit : Nat} {text rest : List Char}

/-! ### Places of failures -/

/-- What has to stand at a position of a text for an error with this cause to be noticed there,
where filters may be nested at most `limit` deep. -/
def Cause.PointsAt (limit : Nat) (text : List Char) (position : Nat) : Cause → Prop
  | unexpectedInPath c | unexpectedInIndexer c | unexpectedInFilter c
  | unexpectedAfterIndexer c | unknownEscape c => text[position]? = some c
  | invalidIndex word =>
    word ≠ "" ∧ (∀ c ∈ word.toList, c.isDigit = true ∨ c = '-') ∧
      (text.drop position).take word.length = word.toList ∧
      ∀ index, ¬ IsNumeral word.toList index
  | emptyIndexer => text[position]? = some '\'' ∧ text[position + 1]? = some '\''
  | openIndexer => position = text.length
  | openFilter => position = text.length ∨ position + 1 = text.length
  | tooDeep depth => depth = limit
  | indexExpected | invalidOperator | invalidLiteral | zeroStep => True

/-- Whether the characters that remain where a failure is noticed are such as its cause says. -/
def Failure.InPlace (limit : Nat) (failure : Failure) : Prop :=
  match failure.cause with
  | .unexpectedInPath c | .unexpectedInIndexer c | .unexpectedInFilter c
  | .unexpectedAfterIndexer c | .unknownEscape c => failure.rest.head? = some c
  | .invalidIndex word =>
    word ≠ "" ∧ (∀ c ∈ word.toList, isIndexChar c = true) ∧ word.toList <+: failure.rest ∧
      readInt64 word.toList = none
  | .emptyIndexer => ['\'', '\''] <+: failure.rest
  | .openIndexer => failure.rest = []
  | .openFilter => failure.rest.length ≤ 1
  | .tooDeep depth => depth = limit
  | .indexExpected | .invalidOperator | .invalidLiteral | .zeroStep => True

/-- Where the characters that remain are an end of a text, they are those from the position of the
failure on. -/
theorem drop_position_eq_rest {failure : Failure} (hrest : failure.rest <:+ text) :
    text.drop (failure.toError text.length).position = failure.rest :=
  (List.suffix_iff_eq_drop.mp hrest).symm

/-- A failure in its place points at what it names. -/
theorem Failure.pointsAt_of_inPlace {failure : Failure} (h : failure.InPlace limit)
    (hrest : failure.rest <:+ text) :
    failure.cause.PointsAt limit text (failure.toError text.length).position := by
  obtain ⟨cause, rest⟩ := failure
  have hdrop : text.drop (text.length - rest.length) = rest := drop_position_eq_rest hrest
  have hhead : text[text.length - rest.length]? = rest.head? := by
    rw [← List.head?_drop, hdrop]
  have hlength : rest.length ≤ text.length := hrest.length_le
  change cause.PointsAt limit text (text.length - rest.length)
  cases cause with
  | unexpectedInPath c | unexpectedInIndexer c | unexpectedInFilter c
  | unexpectedAfterIndexer c | unknownEscape c => exact hhead.trans h
  | invalidIndex word =>
    obtain ⟨hne, hchars, hword, hread⟩ := h
    refine ⟨hne, ?_, ?_, ?_⟩
    · intro c hc
      simpa [isIndexChar] using hchars c hc
    · rw [hdrop, ← String.length_toList]
      exact (List.prefix_iff_eq_take.mp hword).symm
    · intro index hindex
      rw [readInt64_eq_some_iff.mpr hindex] at hread
      contradiction
  | emptyIndexer =>
    obtain ⟨more, hmore⟩ := h
    obtain rfl : '\'' :: '\'' :: more = rest := hmore
    refine ⟨hhead, ?_⟩
    rw [← List.getElem?_drop, hdrop]
    rfl
  | openIndexer =>
    obtain rfl : rest = [] := h
    rfl
  | openFilter =>
    have hshort : rest.length ≤ 1 := h
    change text.length - rest.length = text.length ∨ text.length - rest.length + 1 = text.length
    omega
  | tooDeep depth => exact h
  | indexExpected | invalidOperator | invalidLiteral | zeroStep => trivial

/-! ### Outcomes with failures in place -/

/-- If the outcome is a failure, it is noticed where its cause says. -/
def FailsInPlace (limit : Nat) (outcome : Except Failure α) : Prop :=
  ∀ failure, outcome = .error failure → failure.InPlace limit

/-- Success is no failure out of place. -/
theorem failsInPlace_ok (a : α) : FailsInPlace limit (.ok a) := by
  rintro _ ⟨⟩

theorem failsInPlace_error {failure : Failure} (h : failure.InPlace limit) :
    FailsInPlace limit (.error failure : Except Failure α) := by
  rintro _ ⟨⟩
  exact h

/-- Computing something further from what was read does not fail. -/
theorem FailsInPlace.map {outcome : Except Failure α} (h : FailsInPlace limit outcome)
    (f : α → β) : FailsInPlace limit (outcome.map f) := by
  rcases outcome with failure | a
  · exact failsInPlace_error (h failure rfl)
  · exact failsInPlace_ok _

/-- A reader after another one fails in place if both do. -/
theorem FailsInPlace.bind {outcome : Except Failure α} (h : FailsInPlace limit outcome)
    {f : α → Except Failure β} (hf : ∀ a, outcome = .ok a → FailsInPlace limit (f a)) :
    FailsInPlace limit (outcome.bind f) := by
  rcases outcome with failure | a
  · exact failsInPlace_error (h failure rfl)
  · exact hf a rfl

/-! ### Array indexers -/

/-- An indexer is refused at the character that cannot stand there, or at the end of the text. -/
theorem failsInPlace_refuseInIndexer (text : List Char) :
    FailsInPlace limit (refuseInIndexer text : Reading α) := by
  cases text with
  | nil => exact failsInPlace_error rfl
  | cons c rest => exact failsInPlace_error rfl

/-- What stands in the place of a closer is refused in place. -/
theorem failsInPlace_closeIndexer (close : Char) (selector : Selector) (text : List Char) :
    FailsInPlace limit (closeIndexer close selector text) := by
  unfold closeIndexer
  split
  · split
    · exact failsInPlace_ok _
    · exact failsInPlace_refuseInIndexer _
  · exact failsInPlace_refuseInIndexer _

/-- A word of index characters that is no index stands where it is refused. -/
theorem failsInPlace_readIndex (text : List Char) : FailsInPlace limit (readIndex text) := by
  unfold readIndex
  dsimp only
  split
  · exact failsInPlace_error trivial
  · next hne =>
    split
    · exact failsInPlace_ok _
    · next hread =>
      apply failsInPlace_error
      change String.ofList (indexWord text) ≠ "" ∧ _
      rw [String.toList_ofList]
      refine ⟨?_, ?_, List.takeWhile_prefix _, hread⟩
      · intro hempty
        exact hne (by simpa using congrArg String.toList hempty)
      · intro c hc
        exact List.all_eq_true.mp List.all_takeWhile c hc

/-- An index that may be missing is refused in place. -/
theorem failsInPlace_readOptionalIndex (text : List Char) :
    FailsInPlace limit (readOptionalIndex text) := by
  unfold readOptionalIndex
  split
  · exact failsInPlace_ok _
  · exact (failsInPlace_readIndex text).map some

/-- Indexes with commas between them are refused in place. -/
theorem failsInPlace_readIndexes (close : Char) (text : List Char) :
    FailsInPlace limit (readIndexes close text) := by
  fun_induction readIndexes close text with
  | case1 => exact failsInPlace_refuseInIndexer _
  | case2 text rest hr => exact (failsInPlace_readIndex text).map _
  | case3 text rest hr hc ih =>
    apply (failsInPlace_readIndex text).bind
    intro index _
    exact ih.map _
  | case4 => exact failsInPlace_refuseInIndexer _

/-- The step of a slice is refused in place. -/
theorem failsInPlace_readStep (close : Char) (start stop : Option Int64) (text : List Char) :
    FailsInPlace limit (readStep close start stop text) := by
  unfold readStep
  split
  · exact failsInPlace_refuseInIndexer _
  · split
    · apply (failsInPlace_readOptionalIndex text).bind
      intro step _
      split
      · exact failsInPlace_error trivial
      · exact failsInPlace_ok _
    · exact failsInPlace_refuseInIndexer _

/-- The end of a slice, and its step, are refused in place. -/
theorem failsInPlace_readStop (close : Char) (start : Option Int64) (text : List Char) :
    FailsInPlace limit (readStop close start text) := by
  unfold readStop
  split
  · exact failsInPlace_refuseInIndexer _
  · split
    · exact (failsInPlace_readOptionalIndex text).map _
    · split
      · apply (failsInPlace_readOptionalIndex text).bind
        intro stop _
        exact failsInPlace_readStep close start stop _
      · exact failsInPlace_refuseInIndexer _

/-- An array indexer is refused in place. -/
theorem failsInPlace_readArrayIndexer (close : Char) (text : List Char) :
    FailsInPlace limit (readArrayIndexer close text) := by
  unfold readArrayIndexer
  split
  · exact failsInPlace_refuseInIndexer _
  · split
    · exact (failsInPlace_readIndex text).map _
    · split
      · apply (failsInPlace_readIndex text).bind
        intro index _
        exact (failsInPlace_readIndexes close _).map _
      · split
        · apply (failsInPlace_readOptionalIndex text).bind
          intro start _
          exact failsInPlace_readStop close start _
        · split
          · exact failsInPlace_closeIndexer close _ _
          · exact failsInPlace_refuseInIndexer _

/-! ### Quoted text -/

/-- A character that cannot be escaped is the first one that remains. -/
theorem head?_of_readQuoted_eq_unknownEscape {c : Char}
    (h : readQuoted text = .error (.unknownEscape c rest)) : rest.head? = some c := by
  fun_induction readQuoted text with
  | case1 | case2 | case3 => cases h
  | case4 d more hd ih =>
    cases hr : readQuoted more with
    | error fault =>
      rw [hr] at h ih
      exact ih h
    | ok result =>
      rw [hr] at h
      cases h
  | case5 d more hd =>
    obtain ⟨rfl, rfl⟩ := QuoteFault.unknownEscape.inj (Except.error.inj h)
    rfl
  | case6 d more h₁ h₂ h₃ ih =>
    cases hr : readQuoted more with
    | error fault =>
      rw [hr] at h ih
      exact ih h
    | ok result =>
      rw [hr] at h
      cases h

/-- An empty name is two quotes in a row. -/
theorem failsInPlace_readQuotedName (close : Char) (text : List Char) :
    FailsInPlace limit (readQuotedName close ('\'' :: text)) := by
  unfold readQuotedName
  split
  · next name rest hr =>
    split
    · next hempty =>
      obtain rfl : name = [] := List.isEmpty_iff.mp hempty
      have htext : '\'' :: text = quoted [] ++ rest := eq_of_readQuoted hr
      exact failsInPlace_error ⟨rest, htext.symm⟩
    · exact failsInPlace_closeIndexer close _ _
  · exact failsInPlace_error rfl
  · next hr => exact failsInPlace_error (head?_of_readQuoted_eq_unknownEscape hr)

/-! ### Operators and literals -/

/-- A filter is open at the last character of the text or after it. -/
theorem failsInPlace_readOperator (text : List Char) :
    FailsInPlace limit (readOperator text) := by
  unfold readOperator
  split
  case h_1 => exact failsInPlace_error (Nat.zero_le 1)
  case h_2 => exact failsInPlace_error (Nat.le_refl 1)
  case h_10 => exact failsInPlace_error trivial
  all_goals exact failsInPlace_ok _

/-- A literal is refused in place. -/
theorem failsInPlace_readLiteral (text : List Char) : FailsInPlace limit (readLiteral text) := by
  unfold readLiteral
  split
  · split
    · exact failsInPlace_ok _
    · exact failsInPlace_error trivial
    · next hr => exact failsInPlace_error (head?_of_readQuoted_eq_unknownEscape hr)
  case h_2 | h_3 | h_4 => exact failsInPlace_ok _
  · split
    · split
      · exact failsInPlace_ok _
      · exact failsInPlace_error trivial
    · exact failsInPlace_error trivial
  · exact failsInPlace_error trivial

/-! ### Filters and indexers -/

/-- A reader of conditions that notices every failure where its cause says. -/
def ConditionReader.FailsInPlace (nested : ConditionReader) (limit : Nat) : Prop :=
  ∀ text, JsonSelect.FailsInPlace limit (nested.read text)

section

variable {nested : ConditionReader} (hn : nested.FailsInPlace limit)

include hn

/-- Conditions are refused in place if each of them is. -/
theorem failsInPlace_readConditions (text : List Char) :
    FailsInPlace limit (readConditions nested text) := by
  fun_induction readConditions nested text with
  | case1 text failure hr => exact failsInPlace_error (hn text failure hr)
  | case2 => exact failsInPlace_error (Nat.zero_le 1)
  | case3 => exact failsInPlace_ok _
  | case4 text condition c rest hr hc ih => exact ih.map _

/-- A filter is refused in place if its conditions are. -/
theorem failsInPlace_readFilter (close : Char) (text : List Char) :
    FailsInPlace limit (readFilter nested close text) := by
  unfold readFilter
  split
  · apply (failsInPlace_readConditions hn _).bind
    rintro ⟨conditions, rest⟩ _
    exact failsInPlace_closeIndexer close _ _
  · exact failsInPlace_refuseInIndexer _

/-- An indexer of any kind is refused in place if conditions are. -/
theorem failsInPlace_readIndexer (close : Char) (text : List Char) :
    FailsInPlace limit (readIndexer nested close text) := by
  unfold readIndexer
  split
  · exact failsInPlace_error rfl
  · exact failsInPlace_readQuotedName close _
  · exact failsInPlace_readFilter hn close _
  · exact failsInPlace_readArrayIndexer close _

/-! ### Paths and conditions -/

/-- The segments of a path are refused in place if conditions are. -/
theorem failsInPlace_readSegments (inFilter descending afterIndexer : Bool) (text : List Char) :
    FailsInPlace limit (readSegments nested inFilter descending afterIndexer text) := by
  fun_induction readSegments nested inFilter descending afterIndexer text with
  | case1 => exact failsInPlace_ok _
  | case2 descending afterIndexer rest ih => exact ih
  | case3 descending afterIndexer rest hdot ih => exact ih
  | case4 descending afterIndexer c rest h₁ h₂ hc failure hr =>
    exact failsInPlace_error (failsInPlace_readIndexer hn _ rest failure hr)
  | case5 descending afterIndexer c rest h₁ h₂ hc selector rest' hr ih => exact ih.map _
  | case6 => exact failsInPlace_error rfl
  | case7 descending afterIndexer c rest h₁ h₂ hc hname hafter ih => exact ih.map _
  | case8 => exact failsInPlace_ok _

omit hn in
/-- What follows the path of a condition is refused in place. -/
theorem failsInPlace_readComparison (path : List Selector) (text : List Char) :
    FailsInPlace limit (readComparison path text) := by
  unfold readComparison
  split
  · exact failsInPlace_error (Nat.zero_le 1)
  · exact failsInPlace_ok _
  · apply (failsInPlace_readOperator _).bind
    rintro ⟨operator, rest⟩ _
    dsimp only
    split
    · exact failsInPlace_error (Nat.zero_le 1)
    · apply (failsInPlace_readLiteral _).bind
      rintro ⟨literal, rest'⟩ _
      dsimp only
      split
      · exact failsInPlace_error (Nat.zero_le 1)
      · exact failsInPlace_ok _

/-- A condition is refused in place if the conditions in its path are. -/
theorem failsInPlace_readCondition (text : List Char) :
    FailsInPlace limit (readCondition nested text) := by
  unfold readCondition
  split
  · exact failsInPlace_error (Nat.zero_le 1)
  · apply (failsInPlace_readSegments hn true false false _).bind
    rintro ⟨path, rest⟩ _
    exact failsInPlace_readComparison path rest
  · exact failsInPlace_error rfl

end

/-- Only the limit itself is named when conditions are nested too deep, however many levels of it
were left at first. -/
theorem failsInPlace_conditionReader (limit levels : Nat) :
    (conditionReader limit levels).FailsInPlace limit := by
  induction levels with
  | zero =>
    intro text
    exact failsInPlace_error rfl
  | succ levels ih => exact failsInPlace_readCondition ih

/-! ### Whole expressions -/

/-- A path up to the end of the text is refused in place. -/
theorem failsInPlace_readWholePath (text : List Char) :
    FailsInPlace limit (readWholePath limit text) := by
  have hsegments := failsInPlace_readSegments (failsInPlace_conditionReader limit limit)
    false false false text
  unfold readWholePath
  split
  · next failure hr => exact failsInPlace_error (hsegments failure hr)
  · split
    · exact failsInPlace_ok _
    · split
      · exact failsInPlace_ok _
      · exact failsInPlace_error rfl

/-- An expression is refused in place. -/
theorem failsInPlace_readExpression (text : List Char) :
    FailsInPlace limit (readExpression limit text) := by
  unfold readExpression
  split
  · unfold readAfterRoot
    split
    · exact failsInPlace_ok _
    · split
      · exact failsInPlace_readWholePath _
      · split
        · exact failsInPlace_ok _
        · exact failsInPlace_error rfl
  · exact failsInPlace_readWholePath _

/-- The position of an error lies in the expression or at its end, and what its cause names
stands there. -/
theorem pointsAt_of_compileWithin {expression : String} {error : PathError}
    (h : compileWithin limit expression = .error error) :
    error.position ≤ expression.length ∧
      error.cause.PointsAt limit expression.toList error.position := by
  unfold compileWithin at h
  cases hr : readExpression limit expression.toList with
  | ok path =>
    rw [hr] at h
    cases h
  | error failure =>
    rw [hr] at h
    obtain rfl : failure.toError expression.toList.length = error := Except.error.inj h
    have hrest : failure.rest <:+ expression.toList :=
      failsWithin_readExpression limit _ failure hr
    have hplace : failure.InPlace limit := failsInPlace_readExpression _ failure hr
    refine ⟨?_, Failure.pointsAt_of_inPlace hplace hrest⟩
    rw [← String.length_toList]
    exact Nat.sub_le _ _

/-- An index that is too large, after a name in which characters and bytes differ. -/
theorem pointsAt_of_compileWithin_large_index :
    let expression := "$.ä[?(@.b == 1 && @[ -9223372036854775809 ])]"
    let error : PathError := ⟨.invalidIndex "-9223372036854775809", 21⟩
    compileWithin 1 expression = .error error ∧
      error.position ≤ expression.length ∧
      error.cause.PointsAt 1 expression.toList error.position := by
  intro expression error
  have hrun : (compileWithin 1 expression).map (fun _ => ()) = .error error := by
    decide +kernel
  cases h : compileWithin 1 expression with
  | ok path =>
    rw [h] at hrun
    cases hrun
  | error other =>
    obtain rfl : other = error := by
      rw [h] at hrun
      exact Except.error.inj hrun
    exact ⟨rfl, pointsAt_of_compileWithin h⟩

end JsonSelect
