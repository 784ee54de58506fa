import Mathlib.Tactic.Common
import JsonSelect.Grammar.Path

/-!
# Readers stay within their text

A reader leaves an end of the text it was given, and if it fails it does so at a place of that
text: the characters that remain from there are an end of it as well.  `EndsWithin` says both.
It passes through the ways in which readers are put together (`EndsWithin.map`,
`EndsWithin.bind`), so for each reader only the places where it succeeds or fails by itself have
to be looked at.

Paths and conditions nest, so a reader of paths stays within its text if the reader of conditions
that it is given does (`endsWithin_readSegments`), and every reader of conditions does by
induction on its levels (`staysWithin_conditionReader`).
-/

namespace JsonSelect

variable {α β : Type} {text whole rest : List Char}

/-! ### Outcomes within a text -/

/-- If the outcome is a failure, it is noticed at a place of the text. -/
def FailsWithin (text : List Char) (outcome : Except Failure α) : Prop :=
  ∀ failure, outcome = .error failure → failure.rest <:+ text

/-- What is left after reading is an end of the text, and so is what a failure leaves. -/
def EndsWithin (text : List Char) (outcome : Reading α) : Prop :=
  FailsWithin text outcome ∧ ∀ a rest, outcome = .ok (a, rest) → rest <:+ text

/-- Success is no failure. -/
theorem failsWithin_ok (a : α) : FailsWithin text (.ok a) := by
  rintro _ ⟨⟩

theorem failsWithin_error {failure : Failure} (h : failure.rest <:+ text) :
    FailsWithin text (.error failure : Except Failure α) := by
  rintro _ ⟨⟩
  exact h

/-- Success that leaves an end of the text. -/
theorem endsWithin_ok {a : α} (h : rest <:+ text) : EndsWithin text (.ok (a, rest)) := by
  refine ⟨failsWithin_ok _, ?_⟩
  rintro _ _ ⟨⟩
  exact h

/-- A failure at a place of the text leaves nothing else. -/
theorem endsWithin_error {failure : Failure} (h : failure.rest <:+ text) :
    EndsWithin text (.error failure : Reading α) := by
  refine ⟨failsWithin_error h, ?_⟩
  rintro _ _ ⟨⟩

/-- The ends of a text are ends of what the text is an end of. -/
theorem FailsWithin.mono {outcome : Except Failure α} (h : FailsWithin text outcome)
    (hs : text <:+ whole) : FailsWithin whole outcome := by
  intro failure hf
  exact (h failure hf).trans hs

/-- What stays within a text stays within what that is an end of. -/
theorem EndsWithin.mono {outcome : Reading α} (h : EndsWithin text outcome)
    (hs : text <:+ whole) : EndsWithin whole outcome := by
  refine ⟨h.1.mono hs, ?_⟩
  intro a rest ha
  exact (h.2 a rest ha).trans hs

/-- Computing something further from what was read does not fail. -/
theorem FailsWithin.map {outcome : Except Failure α} (h : FailsWithin text outcome)
    (f : α → β) : FailsWithin text (outcome.map f) := by
  rcases outcome with failure | a
  · exact failsWithin_error (h failure rfl)
  · exact failsWithin_ok _

/-- A reader that only computes something further from what was read. -/
theorem EndsWithin.map {outcome : Except Failure α} (h : FailsWithin text outcome)
    {f : α → β × List Char} (hf : ∀ a, outcome = .ok a → (f a).2 <:+ text) :
    EndsWithin text (outcome.map f) := by
  rcases outcome with failure | a
  · exact endsWithin_error (h failure rfl)
  · exact endsWithin_ok (hf a rfl)

/-- Changing what was read changes nothing about what is left. -/
theorem EndsWithin.mapRead {outcome : Reading α} (h : EndsWithin text outcome) (f : α → β) :
    EndsWithin text (outcome.map fun (a, rest) => (f a, rest)) := by
  apply EndsWithin.map h.1
  rintro ⟨a, rest⟩ ha
  exact h.2 a rest ha

/-- A reader after another one. -/
theorem EndsWithin.bind {outcome : Except Failure α} (h : FailsWithin text outcome)
    {f : α → Reading β} (hf : ∀ a, outcome = .ok a → EndsWithin text (f a)) :
    EndsWithin text (outcome.bind f) := by
  rcases outcome with failure | a
  · exact endsWithin_error (h failure rfl)
  · exact hf a rfl

/-! ### Spaces and index characters -/

/-- Skipping spaces leaves an end of the text. -/
theorem skipSpaces_suffix (text : List Char) : skipSpaces text <:+ text :=
  List.dropWhile_suffix _

/-- What is left behind an index and spaces is an end of the text. -/
theorem afterIndexWord_suffix (text : List Char) : afterIndexWord text <:+ text :=
  (skipSpaces_suffix _).trans (List.dropWhile_suffix _)

/-- What follows the delimiter after an index. -/
theorem suffix_of_afterIndexWord {c : Char} (h : afterIndexWord text = c :: rest) :
    rest <:+ text :=
  (List.suffix_cons c rest).trans (h ▸ afterIndexWord_suffix text)

/-! ### Array indexers -/

/-- What an indexer refuses stands at a place of the text. -/
theorem endsWithin_refuseInIndexer (h : rest <:+ text) :
    EndsWithin text (refuseInIndexer rest : Reading α) := by
  cases rest with
  | nil => exact endsWithin_error h
  | cons c rest => exact endsWithin_error h

/-- A refused delimiter stands in the text. -/
theorem endsWithin_refuseInIndexer_cons {c : Char} (h : afterIndexWord text = c :: rest) :
    EndsWithin text (refuseInIndexer (c :: rest) : Reading α) :=
  endsWithin_refuseInIndexer (h ▸ afterIndexWord_suffix text)

/-- Closing an indexer stays within the text. -/
theorem endsWithin_closeIndexer (close : Char) (selector : Selector) :
    EndsWithin text (closeIndexer close selector text) := by
  unfold closeIndexer
  split
  · next c rest =>
    split
    · exact endsWithin_ok (List.suffix_cons c rest)
    · exact endsWithin_refuseInIndexer List.suffix_rfl
  · exact endsWithin_refuseInIndexer List.suffix_rfl

/-- An index that cannot be read is refused where it starts. -/
theorem failsWithin_readIndex (text : List Char) : FailsWithin text (readIndex text) := by
  unfold readIndex
  dsimp only
  split
  · exact failsWithin_error List.suffix_rfl
  · split
    · exact failsWithin_ok _
    · exact failsWithin_error List.suffix_rfl

/-- An index that may be missing is refused where it starts. -/
theorem failsWithin_readOptionalIndex (text : List Char) :
    FailsWithin text (readOptionalIndex text) := by
  unfold readOptionalIndex
  split
  · exact failsWithin_ok _
  · exact (failsWithin_readIndex text).map some

/-- Reading indexes with commas between them stays within the text. -/
theorem endsWithin_readIndexes (close : Char) (text : List Char) :
    EndsWithin text (readIndexes close text) := by
  fun_induction readIndexes close text with
  | case1 text => exact endsWithin_refuseInIndexer List.nil_suffix
  | case2 text rest hr =>
    apply EndsWithin.map (failsWithin_readIndex text)
    intro index _
    exact suffix_of_afterIndexWord hr
  | case3 text rest hr hc ih =>
    have hmore : skipSpaces rest <:+ text :=
      (skipSpaces_suffix rest).trans (suffix_of_afterIndexWord hr)
    apply EndsWithin.bind (failsWithin_readIndex text)
    intro index _
    exact (ih.mono hmore).mapRead _
  | case4 text c rest hr => exact endsWithin_refuseInIndexer_cons hr

/-- Reading the step of a slice stays within the text. -/
theorem endsWithin_readStep (close : Char) (start stop : Option Int64) (text : List Char) :
    EndsWithin text (readStep close start stop text) := by
  unfold readStep
  split
  · exact endsWithin_refuseInIndexer List.nil_suffix
  · next c rest hr =>
    split
    · apply EndsWithin.bind (failsWithin_readOptionalIndex text)
      intro step _
      split
      · exact endsWithin_error (hr ▸ afterIndexWord_suffix text)
      · exact endsWithin_ok (suffix_of_afterIndexWord hr)
    · exact endsWithin_refuseInIndexer_cons hr

/-- Reading the end of a slice, and its step, stays within the text. -/
theorem endsWithin_readStop (close : Char) (start : Option Int64) (text : List Char) :
    EndsWithin text (readStop close start text) := by
  unfold readStop
  split
  · exact endsWithin_refuseInIndexer List.nil_suffix
  · next c rest hr =>
    have hmore : skipSpaces rest <:+ text :=
      (skipSpaces_suffix rest).trans (suffix_of_afterIndexWord hr)
    split
    · apply EndsWithin.map (failsWithin_readOptionalIndex text)
      intro stop _
      exact suffix_of_afterIndexWord hr
    · split
      · apply EndsWithin.bind (failsWithin_readOptionalIndex text)
        intro stop _
        exact (endsWithin_readStep close start stop _).mono hmore
      · exact endsWithin_refuseInIndexer_cons hr

/-- Reading an array indexer stays within the text. -/
theorem endsWithin_readArrayIndexer (close : Char) (text : List Char) :
    EndsWithin text (readArrayIndexer close text) := by
  unfold readArrayIndexer
  split
  · exact endsWithin_refuseInIndexer List.nil_suffix
  · next c rest hr =>
    have hskip : skipSpaces rest <:+ text :=
      (skipSpaces_suffix rest).trans (suffix_of_afterIndexWord hr)
    split
    · apply EndsWithin.map (failsWithin_readIndex text)
      intro index _
      exact suffix_of_afterIndexWord hr
    · split
      · apply EndsWithin.bind (failsWithin_readIndex text)
        intro index _
        have hindexes := (endsWithin_readIndexes close (skipSpaces rest)).mono hskip
        exact hindexes.mapRead fun indexes => Selector.elements (index :: indexes)
      · split
        · apply EndsWithin.bind (failsWithin_readOptionalIndex text)
          intro start _
          exact (endsWithin_readStop close start _).mono hskip
        · split
          · exact (endsWithin_closeIndexer close _).mono hskip
          · exact endsWithin_refuseInIndexer_cons hr

/-! ### Quoted text -/

/-- What follows a quoted name. -/
theorem suffix_of_readQuoted {name : List Char} (h : readQuoted text = .ok (name, rest)) :
    rest <:+ text := by
  refine (List.suffix_cons_iff.mp ⟨quoted name, (eq_of_readQuoted h).symm⟩).resolve_left ?_
  intro heq
  have hlength := length_lt_of_readQuoted h
  rw [heq, List.length_cons] at hlength
  omega

/-- A character that cannot be escaped stands in the text. -/
theorem suffix_of_readQuoted_eq_unknownEscape {c : Char}
    (h : readQuoted text = .error (.unknownEscape c rest)) : rest <:+ text := by
  fun_induction readQuoted text with
  | case1 | case2 | case3 => cases h
  | case4 d more hd ih =>
    have hmore : more <:+ '\\' :: d :: more := List.suffix_append ['\\', d] more
    cases hr : readQuoted more with
    | error fault =>
      rw [hr] at h ih
      exact (ih h).trans hmore
    | ok result =>
      rw [hr] at h
      cases h
  | case5 d more hd =>
    obtain ⟨rfl, rfl⟩ := QuoteFault.unknownEscape.inj (Except.error.inj h)
    exact List.suffix_cons _ _
  | case6 d more h₁ h₂ h₃ ih =>
    cases hr : readQuoted more with
    | error fault =>
      rw [hr] at h ih
      exact (ih h).trans (List.suffix_cons _ _)
    | ok result =>
      rw [hr] at h
      cases h

/-- Reading a quoted name stays within the text. -/
theorem endsWithin_readQuotedName (close : Char) (text : List Char) :
    EndsWithin text (readQuotedName close text) := by
  unfold readQuotedName
  have hbody : text.drop 1 <:+ text := List.drop_suffix 1 text
  split
  · next name rest hr =>
    have hrest : rest <:+ text := (suffix_of_readQuoted hr).trans hbody
    split
    · exact endsWithin_error List.suffix_rfl
    · exact (endsWithin_closeIndexer close _).mono ((skipSpaces_suffix rest).trans hrest)
  · exact endsWithin_error List.nil_suffix
  · next c rest hr =>
    exact endsWithin_error ((suffix_of_readQuoted_eq_unknownEscape hr).trans hbody)

/-! ### Operators and literals -/

/-- Reading an operator stays within the text. -/
theorem endsWithin_readOperator (text : List Char) : EndsWithin text (readOperator text) := by
  unfold readOperator
  split
  case h_1 | h_2 | h_10 => exact endsWithin_error List.suffix_rfl
  case h_7 | h_9 => exact endsWithin_ok (List.suffix_cons _ _)
  all_goals exact endsWithin_ok ((List.suffix_cons _ _).trans (List.suffix_cons _ _))

/-- Reading a literal stays within the text. -/
theorem endsWithin_readLiteral (text : List Char) : EndsWithin text (readLiteral text) := by
  unfold readLiteral
  split
  · next body =>
    have hbody : body <:+ '\'' :: body := List.suffix_cons _ _
    split
    · next hr => exact endsWithin_ok ((suffix_of_readQuoted hr).trans hbody)
    · exact endsWithin_error List.nil_suffix
    · next hr =>
      exact endsWithin_error ((suffix_of_readQuoted_eq_unknownEscape hr).trans hbody)
  · next rest => exact endsWithin_ok (List.suffix_append ['t', 'r', 'u', 'e'] rest)
  · next rest => exact endsWithin_ok (List.suffix_append ['f', 'a', 'l', 's', 'e'] rest)
  · next rest => exact endsWithin_ok (List.suffix_append ['n', 'u', 'l', 'l'] rest)
  · split
    · split
      · next hd => exact endsWithin_ok (hd ▸ List.dropWhile_suffix _)
      · exact endsWithin_error List.suffix_rfl
    · exact endsWithin_error List.suffix_rfl
  · exact endsWithin_error List.suffix_rfl

/-! ### Filters and indexers -/

/-- What is left behind a connective is an end of the text. -/
theorem afterConnective_suffix (c : Char) (rest : List Char) :
    afterConnective c rest <:+ rest := by
  unfold afterConnective
  split
  · exact List.tail_suffix rest
  · exact List.suffix_rfl

/-- A reader of conditions that stays within every text. -/
def ConditionReader.StaysWithin (nested : ConditionReader) : Prop :=
  ∀ text, EndsWithin text (nested.read text)

section

variable {nested : ConditionReader} (hn : nested.StaysWithin)

include hn

/-- Reading conditions stays within the text if reading one of them does. -/
theorem endsWithin_readConditions (text : List Char) :
    EndsWithin text (readConditions nested text) := by
  fun_induction readConditions nested text with
  | case1 text failure hr => exact endsWithin_error ((hn text).1 failure hr)
  | case2 text => exact endsWithin_error List.nil_suffix
  | case3 text condition rest hr =>
    have hparen : ')' :: rest <:+ text := (hn text).2 _ _ hr
    exact endsWithin_ok ((List.suffix_cons ')' rest).trans hparen)
  | case4 text condition c rest hr hc ih =>
    have hc : c :: rest <:+ text := (hn text).2 _ _ hr
    have hrest : rest <:+ text := (List.suffix_cons c rest).trans hc
    have hmore := ih.mono ((afterConnective_suffix c rest).trans hrest)
    exact hmore.mapRead _

/-- Reading a filter stays within the text if reading a condition does. -/
theorem endsWithin_readFilter (close : Char) (text : List Char) :
    EndsWithin text (readFilter nested close text) := by
  unfold readFilter
  split
  · next rest =>
    have hconditions := (endsWithin_readConditions hn rest).mono (List.suffix_cons '(' rest)
    apply EndsWithin.bind hconditions.1
    rintro ⟨conditions, rest'⟩ hresult
    have hrest : rest' <:+ '(' :: rest := hconditions.2 conditions rest' hresult
    exact (endsWithin_closeIndexer close _).mono ((skipSpaces_suffix rest').trans hrest)
  · exact endsWithin_refuseInIndexer List.suffix_rfl

/-- Reading an indexer of any kind stays within the text if reading a condition does. -/
theorem endsWithin_readIndexer (close : Char) (text : List Char) :
    EndsWithin text (readIndexer nested close text) := by
  have hskip := skipSpaces_suffix text
  unfold readIndexer
  split
  · exact endsWithin_error List.nil_suffix
  · next rest hr => exact (endsWithin_readQuotedName close _).mono (hr ▸ hskip)
  · next rest hr =>
    have hrest : rest <:+ text := (List.suffix_cons '?' rest).trans (hr ▸ hskip)
    exact (endsWithin_readFilter hn close rest).mono hrest
  · exact (endsWithin_readArrayIndexer close _).mono hskip

/-! ### Paths and conditions -/

/-- Reading the segments of a path stays within the text if reading a condition does. -/
theorem endsWithin_readSegments (inFilter descending afterIndexer : Bool) (text : List Char) :
    EndsWithin text (readSegments nested inFilter descending afterIndexer text) := by
  fun_induction readSegments nested inFilter descending afterIndexer text with
  | case1 => exact endsWithin_ok List.suffix_rfl
  | case2 descending afterIndexer rest ih =>
    exact ih.mono (List.suffix_append ['.', '.'] rest)
  | case3 descending afterIndexer rest hdot ih => exact ih.mono (List.suffix_cons '.' rest)
  | case4 descending afterIndexer c rest h₁ h₂ hc failure hr =>
    have hindexer : failure.rest <:+ rest := (endsWithin_readIndexer hn _ rest).1 failure hr
    exact endsWithin_error (hindexer.trans (List.suffix_cons c rest))
  | case5 descending afterIndexer c rest h₁ h₂ hc selector rest' hr ih =>
    have hindexer : rest' <:+ rest := (endsWithin_readIndexer hn _ rest).2 _ _ hr
    have hmore := ih.mono (hindexer.trans (List.suffix_cons c rest))
    exact hmore.mapRead _
  | case6 => exact endsWithin_error List.suffix_rfl
  | case7 descending afterIndexer c rest h₁ h₂ hc hname hafter ih =>
    have hmore := ih.mono ((List.dropWhile_suffix _).trans (List.suffix_cons c rest))
    exact hmore.mapRead _
  | case8 => exact endsWithin_ok List.suffix_rfl

omit hn in
/-- Reading what follows the path of a condition stays within the text. -/
theorem endsWithin_readComparison (path : List Selector) (text : List Char) :
    EndsWithin text (readComparison path text) := by
  have hskip := skipSpaces_suffix text
  unfold readComparison
  split
  · exact endsWithin_error List.nil_suffix
  · next rest hr => exact endsWithin_ok (hr ▸ hskip)
  · have hoperator := (endsWithin_readOperator (skipSpaces text)).mono hskip
    apply EndsWithin.bind hoperator.1
    rintro ⟨operator, rest⟩ ho
    have hrest : rest <:+ text := hoperator.2 operator rest ho
    dsimp only
    split
    · exact endsWithin_error List.nil_suffix
    · have hliteral := (endsWithin_readLiteral (skipSpaces rest)).mono
        ((skipSpaces_suffix rest).trans hrest)
      apply EndsWithin.bind hliteral.1
      rintro ⟨literal, rest'⟩ hl
      have hrest' : rest' <:+ text := hliteral.2 literal rest' hl
      dsimp only
      split
      · exact endsWithin_error List.nil_suffix
      · exact endsWithin_ok ((skipSpaces_suffix rest').trans hrest')

/-- Reading a condition stays within the text if the conditions in its path do. -/
theorem endsWithin_readCondition (text : List Char) :
    EndsWithin text (readCondition nested text) := by
  have hskip := skipSpaces_suffix text
  unfold readCondition
  split
  · exact endsWithin_error List.nil_suffix
  · next rest hr =>
    have hsegments := (endsWithin_readSegments hn true false false rest).mono
      ((List.suffix_cons '@' rest).trans (hr ▸ hskip))
    apply EndsWithin.bind hsegments.1
    rintro ⟨path, rest'⟩ hs
    exact (endsWithin_readComparison path rest').mono (hsegments.2 path rest' hs)
  · next c rest _ hr => exact endsWithin_error (hr ▸ hskip)

end

/-- However many levels are left, conditions are read within their text. -/
theorem staysWithin_conditionReader (limit levels : Nat) :
    (conditionReader limit levels).StaysWithin := by
  induction levels with
  | zero =>
    intro text
    exact endsWithin_error List.suffix_rfl
  | succ levels ih => exact endsWithin_readCondition ih

/-! ### Whole expressions -/

/-- A path up to the end of the text is refused at a place of that text. -/
theorem failsWithin_readWholePath (limit : Nat) (text : List Char) :
    FailsWithin text (readWholePath limit text) := by
  have hsegments := endsWithin_readSegments (staysWithin_conditionReader limit limit)
    false false false text
  unfold readWholePath
  split
  · next failure hr => exact failsWithin_error (hsegments.1 failure hr)
  · next selectors rest hr =>
    split
    · exact failsWithin_ok _
    · split
      · exact failsWithin_ok _
      · exact failsWithin_error (hsegments.2 selectors _ hr)

/-- An expression is refused at a place of it. -/
theorem failsWithin_readExpression (limit : Nat) (text : List Char) :
    FailsWithin text (readExpression limit text) := by
  have hskip := skipSpaces_suffix text
  unfold readExpression
  split
  · next rest hr =>
    have hrest : rest <:+ text := (List.suffix_cons '$' rest).trans (hr ▸ hskip)
    unfold readAfterRoot
    split
    · exact failsWithin_ok _
    · split
      · exact (failsWithin_readWholePath limit _).mono hrest
      · split
        · exact failsWithin_ok _
        · exact failsWithin_error hrest
  · exact (failsWithin_readWholePath limit _).mono hskip

end JsonSelect
