import Mathlib.Tactic.Common
import JsonSelect.Proofs.Grammar.Steps
import JsonSelect.Proofs.RoundTrip.Comparison

/-!
# Written paths are read back

Paths hold filters, filters hold conditions, and conditions hold paths again, one level deeper.
`ConditionReader.ReadsBack` says that a reader of conditions reads one of them back from its
text.  If it does so for all conditions of some depth, then paths whose filters hold such
conditions are read back (`readSegments_pathText_append`), and so are the conditions on these
paths (`readCondition_text`); the reader with any number of levels follows by induction on that
number (`readsBackBelow_conditionReader`).
-/

namespace JsonSelect

/-! ### Segments -/

section

variable {nested : ConditionReader} {inFilter descending afterIndexer : Bool}
  {rest : List Char}

/-- An indexer in brackets that is read on its own is read in a path. -/
theorem readSegments_bracket {text : List Char} {selector : Selector}
    (h : readIndexer nested ']' text = .ok (selector, rest)) :
    readSegments nested inFilter descending afterIndexer ('[' :: text) =
      (readSegments nested inFilter descending true rest).map fun (selectors, rest) =>
        (selector :: selectors, rest) := by
  have hclose : closerOf '[' = ']' := rfl
  rw [readSegments_opener (Or.inl rfl), hclose, h]
  rfl

/-- A selector that is written as an indexer in brackets is read back as a segment. -/
theorem exists_readSegments_text_append {inside : List Char} {selector : Selector}
    (htext : selector.text ++ rest = '[' :: inside)
    (h : readIndexer nested ']' inside = .ok (selector, rest)) :
    ∃ after, readSegments nested inFilter descending afterIndexer (selector.text ++ rest) =
      (readSegments nested inFilter descending after rest).map fun (selectors, rest) =>
        (selector :: selectors, rest) := by
  rw [htext]
  exact ⟨true, readSegments_bracket h⟩

end

/-! ### Conditions -/

/-- A reader reads a condition back from its text, whatever may follow it. -/
def ConditionReader.ReadsBack (nested : ConditionReader) (condition : Condition) : Prop :=
  ∀ {text rest : List Char}, skipSpaces text = condition.text ++ rest →
    EndsCondition condition rest → nested.read text = .ok (condition, skipSpaces rest)

/-- After a condition the closing parenthesis ends the conditions of a filter, and any other
character connects it with the next one. -/
theorem readConditions_of_read {nested : ConditionReader} {c : Char} {text rest : List Char}
    {condition : Condition} (h : nested.read text = .ok (condition, c :: rest)) :
    readConditions nested text =
      if c = ')' then .ok ([condition], rest)
      else
        (readConditions nested (afterConnective c rest)).map fun (conditions, rest) =>
          (condition :: conditions, rest) := by
  rw [readConditions_eq_bind, h]
  rfl

/-- The text of a condition is not skipped. -/
theorem skipSpaces_condition_text_append (condition : Condition) (rest : List Char) :
    skipSpaces (condition.text ++ rest) = condition.text ++ rest := by
  obtain ⟨more, h⟩ := condition.exists_text_eq
  rw [h, List.cons_append, skipSpaces_cons_of_ne (by decide)]

/-- The text of some conditions is not skipped. -/
theorem skipSpaces_conditionsText_append {conditions : List Condition} (hne : conditions ≠ [])
    (rest : List Char) :
    skipSpaces (conditionsText conditions ++ rest) = conditionsText conditions ++ rest := by
  obtain ⟨condition, conditions, rfl⟩ := List.exists_cons_of_ne_nil hne
  rw [conditionsText, List.append_assoc, skipSpaces_condition_text_append]

/-- The conditions of a filter are read back, up to the closing parenthesis. -/
theorem readConditions_conditionsText_append {nested : ConditionReader} {terms : Terms}
    {conditions : List Condition} (hne : conditions ≠ [])
    (hw : ConditionsWellFormed terms conditions)
    (hread : ∀ condition ∈ conditions, nested.ReadsBack condition) {text rest : List Char}
    (htext : skipSpaces text = conditionsText conditions ++ ')' :: rest) :
    readConditions nested text = .ok (conditions, rest) := by
  induction conditions generalizing text with
  | nil => exact absurd rfl hne
  | cons condition conditions ih =>
    obtain ⟨-, hlast, hw⟩ := conditionsWellFormed_cons.mp hw
    obtain ⟨hhere, hread⟩ := List.forall_mem_cons.mp hread
    cases conditions with
    | nil =>
      rw [conditionsText_singleton] at htext
      have h := hhere htext (Or.inl ⟨rest, rfl⟩)
      rw [skipSpaces_cons_of_ne (by decide)] at h
      rw [readConditions_of_read h, if_pos rfl]
    | cons next conditions =>
      have hnext := List.cons_ne_nil next conditions
      -- what follows the condition: the connective, and then the other conditions
      set more := conditionsText (next :: conditions) ++ ')' :: rest with hmore
      have hskip : skipSpaces more = more := skipSpaces_conditionsText_append hnext _
      have hshape : skipSpaces text = condition.text ++ ' ' :: '&' :: '&' :: ' ' :: more := by
        rw [htext, conditionsText_cons_cons, hmore]
        simp
      have hends : EndsCondition condition (' ' :: '&' :: '&' :: ' ' :: more) := by
        refine Or.inr ⟨mt hlast hnext, _, rfl, ?_⟩
        rw [skipSpaces_cons_of_ne (by decide)]
        exact List.cons_ne_nil _ _
      have h := hhere hshape hends
      rw [skipSpaces_space_cons, skipSpaces_cons_of_ne (by decide)] at h
      have hrest : readConditions nested (' ' :: more) = .ok (next :: conditions, rest) :=
        ih hnext hw hread (by rw [skipSpaces_space_cons, hskip])
      have hconnective : afterConnective '&' ('&' :: ' ' :: more) = ' ' :: more := rfl
      rw [readConditions_of_read h, if_neg (by decide), hconnective, hrest]
      rfl

/-! ### Paths -/

/-- Whether a reader reads back all conditions whose filters are nested less than `levels`
deep. -/
def ConditionReader.ReadsBackBelow (nested : ConditionReader) (levels : Nat) : Prop :=
  ∀ condition : Condition, condition.WellFormed writtenTerms → condition.depth < levels →
    nested.ReadsBack condition

section

variable {nested : ConditionReader} {levels : Nat} (hn : nested.ReadsBackBelow levels)

include hn

/-- A filter is read back. -/
theorem readIndexer_filter {conditions : List Condition} {inFilter : Bool}
    (hw : (Selector.filter conditions).WellFormed writtenTerms inFilter)
    (hd : (Selector.filter conditions).depth ≤ levels) (rest : List Char) :
    readIndexer nested ']' ('?' :: '(' :: (conditionsText conditions ++ ')' :: ']' :: rest)) =
      .ok (.filter conditions, rest) := by
  obtain ⟨hne, hw⟩ := Selector.wellFormed_filter.mp hw
  have hread : ∀ condition ∈ conditions, nested.ReadsBack condition := by
    intro condition hm
    exact hn condition (hw.of_mem hm)
      (Nat.lt_of_lt_of_le (Nat.lt_succ_of_le (depth_le_conditionsDepth hm)) hd)
  have hconditions : readConditions nested (conditionsText conditions ++ ')' :: ']' :: rest) =
      .ok (conditions, ']' :: rest) :=
    readConditions_conditionsText_append hne hw hread
      (skipSpaces_conditionsText_append hne (')' :: ']' :: rest))
  have hindexer : ∀ text, readIndexer nested ']' ('?' :: text) = readFilter nested ']' text := by
    intro text
    rw [readIndexer, skipSpaces_cons_of_ne (by decide)]
    rfl
  rw [hindexer, readFilter, hconditions]
  simp [Except.bind, skipSpaces_cons_of_ne, closeIndexer]

/-- The segments of a selector are read back, and then those that follow it. -/
theorem readSegments_text_append {inFilter afterIndexer : Bool} {selector : Selector}
    (hw : selector.WellFormed writtenTerms inFilter) (hd : selector.depth ≤ levels)
    {rest : List Char} (hr : ∀ c ∈ rest.head?, isNameChar inFilter c = false) :
    ∃ after, readSegments nested inFilter false afterIndexer (selector.text ++ rest) =
      (readSegments nested inFilter false after rest).map fun (selectors, rest) =>
        (selector :: selectors, rest) := by
  cases selector with
  | member name =>
    cases name with
    | none =>
      refine ⟨false, ?_⟩
      change readSegments nested inFilter false afterIndexer ('.' :: (['*'] ++ rest)) = _
      rw [readSegments_dot (by simp), readSegments_name (by simp) (isNameChar_wildcard inFilter) hr]
      rfl
    | some name =>
      exact exists_readSegments_text_append (by simp [Selector.text])
        (readIndexer_quoted isCloser_bracket rest hw.1)
  | descent name =>
    refine ⟨false, ?_⟩
    cases name with
    | none =>
      change readSegments nested inFilter false afterIndexer ('.' :: '.' :: (['*'] ++ rest)) = _
      rw [readSegments_dots, readSegments_name (by simp) (isNameChar_wildcard inFilter) hr]
      rfl
    | some name =>
      have hbare : IsBareName inFilter name := hw
      have hne : name.toList ≠ [] := by simpa using hbare.ne_empty
      have hselector : bareName true name.toList = .descent (some name) := by
        simp [bareName, Selector.named, hbare.ne_wildcard]
      change readSegments nested inFilter false afterIndexer ('.' :: '.' :: (name.toList ++ rest))
        = _
      rw [readSegments_dots, readSegments_name hne hbare.isNameChar hr, hselector]
  | element index =>
    cases index with
    | none => exact exists_readSegments_text_append rfl (readIndexer_wildcard rest)
    | some index =>
      exact exists_readSegments_text_append (by simp [Selector.text])
        (readIndexer_element rest index)
  | elements indexes =>
    exact exists_readSegments_text_append (by simp [Selector.text]) (readIndexer_elements rest hw)
  | slice start stop step =>
    exact exists_readSegments_text_append (by simp [Selector.text])
      (readIndexer_slice rest start stop hw)
  | filter conditions =>
    exact exists_readSegments_text_append (by simp [Selector.text])
      (readIndexer_filter hn hw hd rest)

/-- A path is read back, up to where it ends. -/
theorem readSegments_pathText_append {inFilter afterIndexer : Bool} {path : List Selector}
    (hw : PathWellFormed writtenTerms inFilter path) (hd : pathDepth path ≤ levels)
    {rest : List Char} (hr : EndsPath inFilter rest) :
    readSegments nested inFilter false afterIndexer (pathText path ++ rest) =
      .ok (path, rest) := by
  induction path generalizing afterIndexer with
  | nil => exact readSegments_of_endsPath hr
  | cons selector path ih =>
    obtain ⟨hselector, hpath⟩ := pathWellFormed_cons.mp hw
    obtain ⟨hhere, hbelow⟩ := Nat.max_le.mp hd
    obtain ⟨after, h⟩ := readSegments_text_append hn hselector hhere
      (isNameChar_head?_pathText_append hr)
    rw [pathText_cons, List.append_assoc, h, ih hpath hbelow]
    rfl

/-- A condition is read back if those inside its path are. -/
theorem readCondition_text {condition : Condition} (hw : condition.WellFormed writtenTerms)
    (hd : condition.depth ≤ levels) {text rest : List Char}
    (htext : skipSpaces text = condition.text ++ rest) (hr : EndsCondition condition rest) :
    readCondition nested text = .ok (condition, skipSpaces rest) := by
  obtain ⟨path, operator, literal⟩ := condition
  obtain ⟨hpath, hnone, hliteral⟩ := hw
  have hshape : skipSpaces text =
      '@' :: (pathText path ++ (comparisonText operator literal ++ rest)) := by
    rw [htext]
    simp [Condition.text]
  have hsegments : readSegments nested true false false
      (pathText path ++ (comparisonText operator literal ++ rest)) =
        .ok (path, comparisonText operator literal ++ rest) :=
    readSegments_pathText_append hn hpath hd (endsPath_comparisonText_append hr)
  rw [readCondition, hshape]
  change (readSegments nested true false false _).bind _ = _
  rw [hsegments]
  exact readComparison_comparisonText_append hnone hliteral hr

end

/-- With as many levels left as the filters of a condition are nested deep and one more, the
condition is read back. -/
theorem readsBackBelow_conditionReader (limit levels : Nat) :
    (conditionReader limit levels).ReadsBackBelow levels := by
  induction levels with
  | zero =>
    intro condition _ hd
    exact absurd hd (Nat.not_lt_zero _)
  | succ levels ih =>
    intro condition hw hd text rest htext hr
    exact readCondition_text ih hw (Nat.le_of_lt_succ hd) htext hr

/-! ### Whole expressions -/

section

variable {path : List Selector} {limit : Nat} (hw : PathWellFormed writtenTerms false path)
  (hd : pathDepth path ≤ limit)

include hw hd

/-- The text of a path is read back from end to end. -/
theorem readWholePath_pathText : readWholePath limit (pathText path) = .ok path := by
  have hread : readSegments (conditionReader limit limit) false false false
      (pathText path ++ []) = .ok (path, []) :=
    readSegments_pathText_append (readsBackBelow_conditionReader limit limit) hw hd endsPath_nil
  rw [List.append_nil] at hread
  rw [readWholePath, hread]

/-- The text of a path is read back where an expression starts. -/
theorem readExpression_pathText : readExpression limit (pathText path) = .ok path := by
  have hread := readWholePath_pathText hw hd
  by_cases hp : path = []
  · subst hp
    exact hread
  · obtain ⟨c, text, htext, hstart⟩ := exists_pathText_eq hp
    rw [htext] at hread ⊢
    have hc : c ≠ ' ' ∧ c ≠ '$' := by
      rcases hstart with rfl | rfl <;> decide
    rw [readExpression_of_head? (by simpa using hc.1) (by simpa using hc.2), hread]

/-- The text of a path is read back after a `$`. -/
theorem readExpression_root_pathText :
    readExpression limit ('$' :: pathText path) = .ok path := by
  have hstart : ∀ c ∈ (pathText path).head?, c = '.' ∨ c = '[' := by
    intro c hc
    by_cases hp : path = []
    · subst hp
      cases hc
    · obtain ⟨d, text, htext, hstart⟩ := exists_pathText_eq hp
      rw [htext] at hc
      obtain rfl := Option.some.inj hc
      exact hstart
  rw [readExpression_root hstart, readWholePath_pathText hw hd]

end

/-- Every well-formed path is read back from its text, with or without a `$` before it, under any
limit that its filters keep. -/
theorem compileWithin_pathText {path : List Selector} {limit : Nat}
    (hw : PathWellFormed writtenTerms false path) (hd : pathDepth path ≤ limit) :
    compileWithin limit (String.ofList ('$' :: pathText path)) = .ok path ∧
      compileWithin limit (String.ofList (pathText path)) = .ok path := by
  constructor
  · rw [compileWithin, String.toList_ofList, readExpression_root_pathText hw hd]
    rfl
  · rw [compileWithin, String.toList_ofList, readExpression_pathText hw hd]
    rfl

/-- A path with a name to be quoted and with a filter inside a filter. -/
theorem compileWithin_pathText_nested :
    let path : List Selector :=
      [.descent (some "book"),
        .filter
          [.comparison [.member (some "it's")] .atMost (.integer (-3)),
            .presence [.filter [.presence [.slice none (some 2) (some (-1))]], .descent none]],
        .elements [0, -1], .slice (some 1) none none, .member none]
    let text := "$..book[?(@['it\\'s'] <= -3 && @[?(@[:2:-1])]..*)][0,-1][1::].*"
    String.ofList ('$' :: pathText path) = text ∧ compileWithin 2 text = .ok path := by
  intro path text
  have hbook : IsBareName false "book" :=
    isBareName_ofList (List.cons_ne_nil 'b' ['o', 'o', 'k']) (by decide) (by simp [isNameChar])
  have hw : PathWellFormed writtenTerms false path := by
    simp [path, PathWellFormed, Selector.WellFormed, ConditionsWellFormed, Condition.WellFormed,
      Condition.comparison, Condition.presence, Condition.operator, writtenTerms, hbook]
  have hd : pathDepth path ≤ 2 := by decide
  have htext : String.ofList ('$' :: pathText path) = text := by decide
  exact ⟨htext, htext ▸ (compileWithin_pathText hw hd).1⟩

end JsonSelect
