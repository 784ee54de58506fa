import Mathlib.Tactic.Common
import JsonSelect.Proofs.Grammar.ArrayIndexer
import JsonSelect.Proofs.Grammar.Within

/-!
# What is read is well-formed

Whatever text a path is read from, it is well-formed in the sense of `textTerms`: the name of a
member is a bare name or stands quoted in the text, and floating-point literals are finite.  The
clauses on indexes and steps are settled by the grammar of array indexers, and those on names by
the readers of names.
That a condition on presence is the last of its filter is not, since a filter reads on after each
condition: what matters there is that such a condition is only read before the closing
parenthesis, which is part of `ConditionReader.Sound`.

The number of levels that a reader of conditions has left bounds the depth of what it reads.
-/

namespace JsonSelect

variable {whole text rest : List Char}

/-- The terms that can come out of a text. -/
def textTerms (whole : List Char) : Terms where
  member inFilter name := IsBareName inFilter name ∨ quoted name.toList <:+: whole
  literal value := ∀ x, value = .float x → ∃ y, x = .finite y

/-! ### Array indexers -/

section

variable {terms : Terms} {inFilter : Bool} {close : Char} {selector : Selector}

/-- The four forms of an array indexer are well-formed, and none of them holds a filter. -/
theorem IsArrayIndexer.wellFormed (h : IsArrayIndexer text selector) :
    selector.WellFormed terms inFilter ∧ selector.depth = 0 := by
  cases h with
  | wildcard | index => exact ⟨trivial, rfl⟩
  | list hlength => exact ⟨hlength, rfl⟩
  | slice _ hend => exact ⟨hend.step_ne_zero, rfl⟩

/-! ### Names -/

/-- A quoted name is not empty, and it stands in the text as it is written. -/
theorem wellFormed_of_readQuotedName
    (h : readQuotedName close ('\'' :: text) = .ok (selector, rest))
    (hs : '\'' :: text <:+ whole) :
    selector.WellFormed (textTerms whole) inFilter ∧ selector.depth = 0 := by
  unfold readQuotedName at h
  split at h
  · next name rest' hr =>
    split at h
    · contradiction
    · next hne =>
      obtain ⟨rfl, -⟩ := eq_of_closeIndexer h
      have htext : '\'' :: text = quoted name ++ rest' := eq_of_readQuoted hr
      have hquoted : quoted name <:+: whole := by
        refine List.IsInfix.trans ?_ hs.isInfix
        rw [htext]
        exact (List.prefix_append _ _).isInfix
      refine ⟨⟨?_, Or.inr ?_⟩, rfl⟩
      · intro hempty
        exact hne (by simpa using congrArg String.toList hempty)
      · rwa [String.toList_ofList]
  · contradiction
  · contradiction

/-- A bare name is none of the words that mean something else. -/
theorem wellFormed_bareName (descending : Bool) {name : List Char} (hne : name ≠ [])
    (hall : ∀ c ∈ name, isNameChar inFilter c = true) :
    (bareName descending name).WellFormed (textTerms whole) inFilter ∧
      (bareName descending name).depth = 0 := by
  by_cases hw : String.ofList name = "*"
  · cases descending <;> simp [bareName, Selector.named, hw, Selector.WellFormed, Selector.depth]
  · have hbare := isBareName_ofList hne hw hall
    cases descending with
    | true =>
      rw [bareName, Selector.named, if_neg hw]
      exact ⟨hbare, rfl⟩
    | false =>
      rw [bareName, Selector.named, if_neg hw]
      exact ⟨⟨hbare.ne_empty, Or.inl hbare⟩, rfl⟩

end

/-! ### Literals -/

/-- A number that is read is finite. -/
theorem finite_of_numberLiteral? {word : List Char} {literal : Literal}
    (h : numberLiteral? word = some literal) : (textTerms whole).literal literal := by
  unfold numberLiteral? at h
  split at h
  · split at h
    · next x hx =>
      obtain rfl := Option.some.inj h
      rintro _ ⟨⟩
      exact ⟨x, rfl⟩
    · contradiction
  · obtain ⟨value, -, rfl⟩ := Option.map_eq_some_iff.mp h
    rintro _ ⟨⟩

/-- A literal that is read is finite. -/
theorem finite_of_readLiteral {literal : Literal}
    (h : readLiteral text = .ok (literal, rest)) : (textTerms whole).literal literal := by
  unfold readLiteral at h
  split at h
  · split at h
    · obtain ⟨rfl, -⟩ := Prod.mk.inj (Except.ok.inj h)
      rintro _ ⟨⟩
    · contradiction
    · contradiction
  case h_2 | h_3 | h_4 =>
    obtain ⟨rfl, -⟩ := Prod.mk.inj (Except.ok.inj h)
    rintro _ ⟨⟩
  · split at h
    · split at h
      · next hn _ =>
        obtain ⟨rfl, -⟩ := Prod.mk.inj (Except.ok.inj h)
        exact finite_of_numberLiteral? hn
      · contradiction
    · contradiction
  · contradiction

/-- Every operator that is read compares. -/
theorem ne_present_of_readOperator {operator : Operator}
    (h : readOperator text = .ok (operator, rest)) : operator ≠ .present := by
  unfold readOperator at h
  split at h
  case h_1 | h_2 | h_10 => contradiction
  all_goals
    obtain ⟨rfl, -⟩ := Prod.mk.inj (Except.ok.inj h)
    decide

/-! ### Filters -/

/-- Whether a reader gives well-formed conditions, nested less than `levels` deep, when it reads
from an end of the whole text.  After a condition on presence it leaves the closing
parenthesis. -/
def ConditionReader.Sound (nested : ConditionReader) (whole : List Char) (levels : Nat) : Prop :=
  ∀ {text condition rest}, text <:+ whole → nested.read text = .ok (condition, rest) →
    condition.WellFormed (textTerms whole) ∧ condition.depth < levels ∧
      (condition.operator = .present → rest.head? = some ')')

section

variable {nested : ConditionReader} {levels : Nat} (hn : nested.Sound whole levels)
  (hwithin : nested.StaysWithin)

include hn hwithin

/-- The conditions of a filter are well-formed, and there is at least one. -/
theorem wellFormed_of_readConditions {conditions : List Condition} (hs : text <:+ whole)
    (h : readConditions nested text = .ok (conditions, rest)) :
    conditions ≠ [] ∧ ConditionsWellFormed (textTerms whole) conditions ∧
      conditionsDepth conditions < levels := by
  fun_induction readConditions nested text generalizing conditions rest with
  | case1 => contradiction
  | case2 => contradiction
  | case3 text condition rest' hr =>
    obtain ⟨rfl, -⟩ := Prod.mk.inj (Except.ok.inj h)
    obtain ⟨hw, hd, -⟩ := hn hs hr
    refine ⟨List.cons_ne_nil _ _, ⟨hw, fun _ => rfl, conditionsWellFormed_nil⟩, ?_⟩
    rwa [conditionsDepth, conditionsDepth, Nat.max_zero]
  | case4 text condition c rest' hr hc ih =>
    obtain ⟨⟨more, rest''⟩, hm, h⟩ := map_eq_ok_iff.mp h
    obtain ⟨rfl, -⟩ := Prod.mk.inj h
    obtain ⟨hw, hd, hlast⟩ := hn hs hr
    have hrest : rest' <:+ whole :=
      (List.suffix_cons c rest').trans (((hwithin text).2 _ _ hr).trans hs)
    obtain ⟨-, hmore, hdeep⟩ := ih ((afterConnective_suffix c rest').trans hrest) hm
    -- a condition on presence would have left the closing parenthesis
    have hcompares : condition.operator ≠ .present := by
      intro hp
      exact hc (Option.some.inj (hlast hp))
    refine ⟨List.cons_ne_nil _ _, ⟨hw, ?_, hmore⟩, Nat.max_lt.mpr ⟨hd, hdeep⟩⟩
    intro hp
    exact absurd hp hcompares

/-- An indexer is well-formed, and a filter in it is nested no deeper than there are levels. -/
theorem wellFormed_of_readIndexer {inFilter : Bool} {opening : Char} {selector : Selector}
    (hs : text <:+ whole)
    (h : readIndexer nested (closerOf opening) text = .ok (selector, rest)) :
    selector.WellFormed (textTerms whole) inFilter ∧ selector.depth ≤ levels := by
  have hskip := (skipSpaces_suffix text).trans hs
  have hflat : selector.WellFormed (textTerms whole) inFilter ∧ selector.depth = 0 →
      selector.WellFormed (textTerms whole) inFilter ∧ selector.depth ≤ levels := by
    rintro ⟨hw, hd⟩
    exact ⟨hw, hd ▸ Nat.zero_le levels⟩
  unfold readIndexer at h
  split at h
  · contradiction
  · next body hr => exact hflat (wellFormed_of_readQuotedName h (hr ▸ hskip))
  · next body hr =>
    unfold readFilter at h
    split at h
    · next body =>
      obtain ⟨⟨conditions, rest'⟩, hm, h⟩ := bind_eq_ok_iff.mp h
      obtain ⟨rfl, -⟩ := eq_of_closeIndexer h
      have hopen : '?' :: '(' :: body <:+ whole := hr ▸ hskip
      have hbody : body <:+ whole := (List.suffix_append ['?', '('] body).trans hopen
      obtain ⟨hne, hw, hd⟩ := wellFormed_of_readConditions hn hwithin hbody hm
      exact ⟨⟨hne, hw⟩, hd⟩
    · exact absurd h (refuseInIndexer_ne_ok _ _)
  · obtain ⟨body, -, hbody⟩ :=
      exists_isArrayIndexer_of_readArrayIndexer (isCloser_closerOf opening) h
    exact hflat hbody.wellFormed

/-- A path that is read is well-formed, and its filters are nested no deeper than there are
levels. -/
theorem wellFormed_of_readSegments {inFilter descending afterIndexer : Bool}
    {path : List Selector} (hs : text <:+ whole)
    (h : readSegments nested inFilter descending afterIndexer text = .ok (path, rest)) :
    PathWellFormed (textTerms whole) inFilter path ∧ pathDepth path ≤ levels := by
  fun_induction readSegments nested inFilter descending afterIndexer text
    generalizing path rest with
  | case1 | case8 =>
    obtain ⟨rfl, -⟩ := Prod.mk.inj (Except.ok.inj h)
    exact ⟨trivial, Nat.zero_le _⟩
  | case2 descending afterIndexer more ih =>
    exact ih ((List.suffix_append ['.', '.'] more).trans hs) h
  | case3 descending afterIndexer more hdot ih =>
    exact ih ((List.suffix_cons '.' more).trans hs) h
  | case4 => contradiction
  | case5 descending afterIndexer c more h₁ h₂ hc selector rest' hr ih =>
    obtain ⟨⟨selectors, rest''⟩, hm, h⟩ := map_eq_ok_iff.mp h
    obtain ⟨rfl, -⟩ := Prod.mk.inj h
    have hmore : more <:+ whole := (List.suffix_cons c more).trans hs
    have hrest : rest' <:+ more := (endsWithin_readIndexer hwithin _ more).2 _ _ hr
    obtain ⟨hhere, hdepth⟩ := wellFormed_of_readIndexer hn hwithin hmore hr
    obtain ⟨hpath, hdeep⟩ := ih (hrest.trans hmore) hm
    exact ⟨⟨hhere, hpath⟩, Nat.max_le.mpr ⟨hdepth, hdeep⟩⟩
  | case6 => contradiction
  | case7 descending afterIndexer c more h₁ h₂ hc hname hafter ih =>
    obtain ⟨⟨selectors, rest''⟩, hm, h⟩ := map_eq_ok_iff.mp h
    obtain ⟨rfl, -⟩ := Prod.mk.inj h
    have hall : ∀ d ∈ c :: more.takeWhile (isNameChar inFilter), isNameChar inFilter d = true := by
      intro d hd
      rcases List.mem_cons.mp hd with rfl | hd
      · exact hname
      · exact List.all_eq_true.mp List.all_takeWhile d hd
    have hmore : more <:+ whole := (List.suffix_cons c more).trans hs
    obtain ⟨hhere, hdepth⟩ := wellFormed_bareName descending (List.cons_ne_nil _ _) hall
    obtain ⟨hpath, hdeep⟩ := ih ((List.dropWhile_suffix _).trans hmore) hm
    exact ⟨⟨hhere, hpath⟩, Nat.max_le.mpr ⟨hdepth ▸ Nat.zero_le levels, hdeep⟩⟩

end

/-! ### Conditions -/

/-- A condition is nested as deep as its path. -/
theorem depth_of_readComparison {path : List Selector} {condition : Condition}
    (h : readComparison path text = .ok (condition, rest)) :
    condition.depth = pathDepth path := by
  obtain ⟨rfl, -⟩ | ⟨operator, literal, after, behind, -, -, rfl, -⟩ := readComparison_cases h
  · rfl
  · rfl

/-- A condition is as well-formed as its path.  It is one on presence only if the closing
parenthesis comes next. -/
theorem wellFormed_of_readComparison {path : List Selector} {condition : Condition}
    (hp : PathWellFormed (textTerms whole) true path)
    (h : readComparison path text = .ok (condition, rest)) :
    condition.WellFormed (textTerms whole) ∧
      (condition.operator = .present → rest.head? = some ')') := by
  obtain ⟨rfl, hparen, -⟩ | ⟨operator, literal, after, behind, ho, hl, rfl, -⟩ :=
    readComparison_cases h
  · exact ⟨⟨hp, Iff.intro (fun _ => rfl) fun _ => rfl, by simp⟩, fun _ => hparen⟩
  · have hcompares : operator ≠ .present := ne_present_of_readOperator ho
    have hfinite : ∀ value ∈ some literal, (textTerms whole).literal value := by
      rintro _ ⟨⟩
      exact finite_of_readLiteral hl
    refine ⟨⟨hp, ?_, hfinite⟩, ?_⟩
    · constructor
      · intro hnone
        contradiction
      · intro hpresent
        exact absurd hpresent hcompares
    · intro hpresent
      exact absurd hpresent hcompares

/-- A condition adds no level to those of its path. -/
theorem sound_readCondition {nested : ConditionReader} {levels : Nat}
    (hn : nested.Sound whole levels) (hwithin : nested.StaysWithin) {condition : Condition}
    (hs : text <:+ whole) (h : readCondition nested text = .ok (condition, rest)) :
    condition.WellFormed (textTerms whole) ∧ condition.depth < levels + 1 ∧
      (condition.operator = .present → rest.head? = some ')') := by
  have hskip := (skipSpaces_suffix text).trans hs
  unfold readCondition at h
  split at h
  · contradiction
  · next body hr =>
    obtain ⟨⟨path, rest'⟩, hm, h⟩ := bind_eq_ok_iff.mp h
    have hbody : body <:+ whole := (List.suffix_cons '@' body).trans (hr ▸ hskip)
    obtain ⟨hpath, hdepth⟩ := wellFormed_of_readSegments hn hwithin hbody hm
    obtain ⟨hw, hlast⟩ := wellFormed_of_readComparison hpath h
    exact ⟨hw, depth_of_readComparison h ▸ Nat.lt_succ_of_le hdepth, hlast⟩
  · contradiction

/-- Every level of a reader allows for one more level of nesting. -/
theorem sound_conditionReader (whole : List Char) (limit levels : Nat) :
    (conditionReader limit levels).Sound whole levels := by
  induction levels with
  | zero =>
    intro text condition rest hs h
    contradiction
  | succ levels ih =>
    intro text condition rest hs h
    exact sound_readCondition ih (staysWithin_conditionReader limit levels) hs h

/-! ### Whole expressions -/

section

variable {limit : Nat} {path : List Selector}

/-- A path that fills the text is well-formed, and its filters keep the limit. -/
theorem wellFormed_of_readWholePath (hs : text <:+ whole)
    (h : readWholePath limit text = .ok path) :
    PathWellFormed (textTerms whole) false path ∧ pathDepth path ≤ limit := by
  have hread : ∀ {selectors rest},
      readSegments (conditionReader limit limit) false false false text = .ok (selectors, rest) →
        PathWellFormed (textTerms whole) false selectors ∧ pathDepth selectors ≤ limit := by
    intro selectors rest hr
    have hsound : (conditionReader limit limit).Sound whole limit :=
      sound_conditionReader whole limit limit
    have hwithin := staysWithin_conditionReader limit limit
    exact wellFormed_of_readSegments hsound hwithin hs hr
  unfold readWholePath at h
  split at h
  · contradiction
  · next selectors rest hr =>
    split at h
    · obtain rfl := Except.ok.inj h
      exact hread hr
    · split at h
      · obtain rfl := Except.ok.inj h
        exact hread hr
      · contradiction

/-- The same is true of an expression, with or without a `$` before its path. -/
theorem wellFormed_of_readExpression (h : readExpression limit text = .ok path) :
    PathWellFormed (textTerms text) false path ∧ pathDepth path ≤ limit := by
  have hskip := skipSpaces_suffix text
  unfold readExpression at h
  split at h
  · next rest hr =>
    have hrest : rest <:+ text := (List.suffix_cons '$' rest).trans (hr ▸ hskip)
    unfold readAfterRoot at h
    split at h
    · obtain rfl := Except.ok.inj h
      exact ⟨trivial, Nat.zero_le _⟩
    · next c rest =>
      split at h
      · exact wellFormed_of_readWholePath hrest h
      · split at h
        · obtain rfl := Except.ok.inj h
          exact ⟨trivial, Nat.zero_le _⟩
        · contradiction
  · exact wellFormed_of_readWholePath hskip h

/-- Compiling gives a path exactly if the expression is read as that path. -/
theorem compileWithin_eq_ok_iff {expression : String} :
    compileWithin limit expression = .ok path ↔
      readExpression limit expression.toList = .ok path := by
  unfold compileWithin
  cases readExpression limit expression.toList <;> simp [Except.mapError]

/-- Every path that is compiled is well-formed at each level of nesting, and its filters keep the
limit.  A member whose name is the wildcard can only have been quoted. -/
theorem wellFormed_of_compileWithin {expression : String}
    (h : compileWithin limit expression = .ok path) :
    PathWellFormed (textTerms expression.toList) false path ∧ pathDepth path ≤ limit := by
  unfold compileWithin at h
  cases hr : readExpression limit expression.toList with
  | error failure =>
    rw [hr] at h
    cases h
  | ok selectors =>
    rw [hr] at h
    obtain rfl := Except.ok.inj h
    exact wellFormed_of_readExpression hr

end

/-- A name that is quoted since it would be the wildcard, and a literal with an exponent. -/
theorem wellFormed_of_compileWithin_quoted_wildcard :
    let expression := "$.a[?(@..b == -1.5e0 && @['*'][1,2])][::-1]"
    ∃ path, compileWithin 1 expression = .ok path ∧
      samePath path
        [.member (some "a"),
          .filter
            [.comparison [.descent (some "b")] .equal
                (.float (.finite ⟨true, 0x3ff8000000000000, by decide⟩)),
              .presence [.member (some "*"), .elements [1, 2]]],
          .slice none none (some (-1))] = true ∧
      PathWellFormed (textTerms expression.toList) false path ∧ pathDepth path ≤ 1 := by
  intro expression
  have hrun : (compileWithin 1 expression).toOption.any (fun path => samePath path
      [.member (some "a"),
        .filter
          [.comparison [.descent (some "b")] .equal
              (.float (.finite ⟨true, 0x3ff8000000000000, by decide⟩)),
            .presence [.member (some "*"), .elements [1, 2]]],
        .slice none none (some (-1))]) = true := by
    decide +kernel
  cases h : compileWithin 1 expression with
  | error failure =>
    rw [h] at hrun
    cases hrun
  | ok path =>
    rw [h] at hrun
    exact ⟨path, rfl, hrun, wellFormed_of_compileWithin h⟩

end JsonSelect
