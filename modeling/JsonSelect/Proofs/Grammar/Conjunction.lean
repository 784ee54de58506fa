import Mathlib.Tactic.Common
import JsonSelect.Proofs.Evaluation.SliceRange
import JsonSelect.Proofs.Grammar.Refusal
import JsonSelect.Proofs.Grammar.RootPath

/-!
# Conjunctions of filters

The conditions of two filters can be put into one, with `&&` between them.  The conditions of the
first filter are read as before up to the last one, which used to stand before the closing
parenthesis and now stands before the connective (`exists_last_of_readConditions`).  A comparison
is read there as well, since its literal ends before both (`exists_readCondition_of_comparison`).

A condition on presence has no operator, which shows only at the closing parenthesis: before a
connective an operator is missing (`readCondition_connective_of_presence`).  So a filter whose last
condition is on presence cannot be the first one of the two (`compileWithin_conjunction`).
-/

namespace JsonSelect

/-! ### One condition before a connective -/

section

variable {nested : ConditionReader} (hn : nested.LooksOneAhead)

include hn

/-- A condition on a comparison is read before everything that ends its literal. -/
theorem exists_readCondition_of_comparison {text rest : List Char} {condition : Condition}
    (h : readCondition nested text = .ok (condition, rest)) (hop : condition.operator ≠ .present) :
    ∃ front, text = front ++ rest ∧
      ∀ more, skipSpaces more ≠ [] → (EndsLiteral rest → EndsLiteral more) →
        readCondition nested (front ++ more) = .ok (condition, skipSpaces more) := by
  obtain ⟨front, path, _, rfl, hends, hcomparison, hfront⟩ := exists_readCondition hn h
  obtain ⟨-, behind, rfl, hne, hbehind⟩ := exists_readComparison hcomparison hop
  obtain ⟨c, behind, rfl⟩ := List.exists_cons_of_ne_nil hne
  refine ⟨front ++ c :: behind, (List.append_assoc ..).symm, fun more hmore hliteral => ?_⟩
  have hpath : EndsPath true (c :: behind ++ more) := hends.of_head? rfl
  rw [List.append_assoc, hfront _ hpath]
  exact hbehind more hmore hliteral

/-- Before a connective a condition on presence lacks an operator. -/
theorem readCondition_connective_of_presence {word rest more : List Char} {condition : Condition}
    (h : readCondition nested (word ++ ')' :: rest) = .ok (condition, ')' :: rest))
    (hop : condition.operator = .present) (hmore : more ≠ []) :
    readCondition nested (word ++ ' ' :: '&' :: more) = .error ⟨.invalidOperator, '&' :: more⟩ := by
  obtain ⟨front, path, behind, htext, -, hcomparison, hfront⟩ := exists_readCondition hn h
  obtain ⟨-, -, hbehind⟩ := eq_of_readComparison_presence hcomparison hop
  obtain ⟨spaces, hspaces, hblank⟩ := exists_isBlank_append_skipSpaces behind
  rw [hbehind] at hspaces
  obtain rfl : word = front ++ spaces := by
    rw [hspaces, ← List.append_assoc] at htext
    exact List.append_cancel_right htext
  have hends : EndsPath true (spaces ++ ' ' :: '&' :: more) := by
    have hspace : IsBlank (spaces ++ [' ']) :=
      isBlank_append_iff.mpr ⟨hblank, List.forall_mem_singleton.mpr rfl⟩
    apply hspace.endsPath.of_head?
    rw [List.head?_append, List.head?_append]
    rfl
  have hskip : skipSpaces (spaces ++ ' ' :: '&' :: more) = '&' :: more := by
    rw [skipSpaces_append_of_isBlank hblank, skipSpaces_space_cons,
      skipSpaces_cons_of_ne (by decide)]
  obtain ⟨c, more, rfl⟩ := List.exists_cons_of_ne_nil hmore
  rw [List.append_assoc, hfront _ hends, readComparison_of_skipSpaces hskip, if_neg (by decide)]
  simp [readOperator, Except.bind]

end

/-! ### All conditions before a connective -/

section

variable {limit levels : Nat} {text word rest : List Char} {conditions others : List Condition}

/-- A space in front of conditions is skipped. -/
theorem readConditions_space_cons :
    readConditions (conditionReader limit (levels + 1)) (' ' :: text) =
      readConditions (conditionReader limit (levels + 1)) text := by
  have hread : (conditionReader limit (levels + 1)).read (' ' :: text) =
      (conditionReader limit (levels + 1)).read text := by
    change readCondition _ (' ' :: text) = readCondition _ text
    unfold readCondition
    rw [skipSpaces_space_cons]
  rw [readConditions_eq_bind, readConditions_eq_bind, hread]

/-- The last condition is read with one level of nesting less. -/
theorem exists_last_condition
    (h : readConditions (conditionReader limit levels) (text ++ ')' :: rest) =
      .ok (conditions, rest)) :
    ∃ below final initial last, levels = below + 1 ∧ conditions = initial ++ [last] ∧
      readCondition (conditionReader limit below) (final ++ ')' :: rest) =
        .ok (last, ')' :: rest) ∧
      ∀ more, readConditions (conditionReader limit levels) (text ++ more) =
        (readConditions (conditionReader limit levels) (final ++ more)).map fun (others, rest) =>
          (initial ++ others, rest) := by
  obtain ⟨front, final, initial, last, htext, -, rfl, hread, hmore⟩ :=
    exists_last_of_readConditions (looksOneAhead_conditionReader limit levels) h
  obtain rfl : text = front := List.append_cancel_right htext
  cases levels with
  | zero => contradiction
  | succ below => exact ⟨below, final, initial, last, rfl, rfl, hread, hmore⟩

/-- Behind conditions of which the last one is a comparison, others may follow. -/
theorem readConditions_conjunction
    (h : readConditions (conditionReader limit levels) (text ++ ')' :: rest) =
      .ok (conditions, rest))
    (hothers : readConditions (conditionReader limit levels) (word ++ ')' :: rest) =
      .ok (others, rest))
    (hlast : ∀ last ∈ conditions.getLast?, last.operator ≠ .present) :
    readConditions (conditionReader limit levels)
        (text ++ ' ' :: '&' :: '&' :: ' ' :: (word ++ ')' :: rest)) =
      .ok (conditions ++ others, rest) := by
  obtain ⟨below, final, initial, last, rfl, rfl, hread, hmore⟩ := exists_last_condition h
  have hop : last.operator ≠ .present := hlast last (by simp)
  obtain ⟨front, hfinal, hfront⟩ :=
    exists_readCondition_of_comparison (looksOneAhead_conditionReader limit below) hread hop
  obtain rfl : final = front := List.append_cancel_right hfinal
  have hbefore : (conditionReader limit (below + 1)).read
      (final ++ ' ' :: '&' :: '&' :: ' ' :: (word ++ ')' :: rest)) =
        .ok (last, '&' :: '&' :: ' ' :: (word ++ ')' :: rest)) := by
    apply hfront
    · rw [skipSpaces_space_cons, skipSpaces_cons_of_ne (by decide)]
      exact List.cons_ne_nil _ _
    · exact fun _ => ⟨' ', _, rfl, by decide⟩
  have hconnective : afterConnective '&' ('&' :: ' ' :: (word ++ ')' :: rest)) =
      ' ' :: (word ++ ')' :: rest) := if_pos rfl
  rw [hmore, readConditions_eq_bind, hbefore]
  change ((afterCondition _ last ('&' :: '&' :: ' ' :: (word ++ ')' :: rest))).map _) = _
  rw [afterCondition, if_neg (by decide), hconnective, readConditions_space_cons, hothers,
    List.append_assoc]
  rfl

/-- Behind conditions of which the last one is on presence, an operator is missing. -/
theorem readConditions_connective_of_presence {more : List Char}
    (h : readConditions (conditionReader limit levels) (text ++ ')' :: rest) =
      .ok (conditions, rest))
    (hlast : ∃ last ∈ conditions.getLast?, last.operator = .present) (hmore : more ≠ []) :
    readConditions (conditionReader limit levels) (text ++ ' ' :: '&' :: more) =
      .error ⟨.invalidOperator, '&' :: more⟩ := by
  obtain ⟨below, final, initial, last, rfl, rfl, hread, hsame⟩ := exists_last_condition h
  have hop : last.operator = .present := by simpa using hlast
  have hconnective := readCondition_connective_of_presence
    (looksOneAhead_conditionReader limit below) hread hop hmore
  have hread : (conditionReader limit (below + 1)).read (final ++ ' ' :: '&' :: more) =
      .error ⟨.invalidOperator, '&' :: more⟩ := hconnective
  rw [hsame, readConditions_eq_bind, hread]
  rfl

end

/-! ### Filters as expressions -/

/-- The expression of a filter with the given text between its parentheses. -/
def filterExpression (conditions : String) : String :=
  "$[?(" ++ conditions ++ ")]"

/-- The characters of an expression with a single filter. -/
theorem toList_filterExpression (conditions : String) :
    (filterExpression conditions).toList =
      '$' :: '[' :: '?' :: '(' :: (conditions.toList ++ [')', ']']) := by
  simp [filterExpression]

section

variable {limit : Nat} {text : List Char}

/-- A filter is its conditions, up to the closer. -/
theorem readIndexer_filter_eq_bind {nested : ConditionReader} (close : Char) :
    readIndexer nested close ('?' :: '(' :: text) =
      (readConditions nested text).bind fun (conditions, rest) =>
        closeIndexer close (.filter conditions) (skipSpaces rest) := by
  rw [readIndexer_of_skipSpaces (skipSpaces_cons_of_ne (by decide) _), if_neg (by decide),
    if_pos rfl]
  rfl

/-- An expression with a filter behind its root is read as a path from the filter on. -/
theorem readExpression_filter :
    readExpression limit ('$' :: '[' :: '?' :: '(' :: text) =
      readWholePath limit ('[' :: '?' :: '(' :: text) := by
  apply readExpression_root
  rintro _ ⟨⟩
  exact Or.inr rfl

/-- What is noticed in the conditions of a filter is noticed in the expression. -/
theorem readExpression_filter_of_error {failure : Failure}
    (h : readConditions (conditionReader limit limit) text = .error failure) :
    readExpression limit ('$' :: '[' :: '?' :: '(' :: text) = .error failure := by
  rw [readExpression_filter, readWholePath_eq_bind, readSegments_opener (Or.inl rfl),
    readIndexer_filter_eq_bind, h]
  rfl

/-- A filter is the whole expression if nothing but dots and spaces follows its closer. -/
theorem readExpression_filter_eq_ok_iff {conditions : List Condition} :
    readExpression limit ('$' :: '[' :: '?' :: '(' :: text) = .ok [.filter conditions] ↔
      ∃ rest behind, readConditions (conditionReader limit limit) text = .ok (conditions, rest) ∧
        skipSpaces rest = ']' :: behind ∧ IsBlank (behind.dropWhile (· == '.')) := by
  rw [readExpression_filter, readWholePath_eq_ok_iff]
  constructor
  · rintro ⟨rest', hpath, hblank⟩
    rw [readSegments_opener (Or.inl rfl)] at hpath
    obtain ⟨⟨selector, behind⟩, hindexer, hpath⟩ := bind_eq_ok_iff.mp hpath
    obtain ⟨⟨selectors, rest''⟩, hsegments, hpath⟩ := map_eq_ok_iff.mp hpath
    obtain ⟨hselectors, rfl⟩ := Prod.mk.inj hpath
    obtain ⟨rfl, rfl⟩ := List.cons.inj hselectors
    obtain ⟨rfl, -⟩ := readSegments_eq_ok_nil_iff.mp hsegments
    rw [closerOf, if_pos rfl, readIndexer_filter_eq_bind] at hindexer
    obtain ⟨⟨read, rest⟩, hconditions, hclose⟩ := bind_eq_ok_iff.mp hindexer
    obtain ⟨hfilter, hrest⟩ := eq_of_closeIndexer hclose
    obtain rfl := Selector.filter.inj hfilter
    exact ⟨rest, behind, hconditions, hrest, hblank⟩
  · rintro ⟨rest, behind, hconditions, hclose, hblank⟩
    have hindexer : readIndexer (conditionReader limit limit) ']' ('?' :: '(' :: text) =
        .ok (.filter conditions, behind) := by
      rw [readIndexer_filter_eq_bind]
      refine bind_eq_ok_iff.mpr ⟨_, hconditions, ?_⟩
      dsimp only
      rw [hclose, closeIndexer, if_pos rfl]
    refine ⟨behind.dropWhile (· == '.'), ?_, hblank⟩
    rw [readSegments_opener (Or.inl rfl)]
    refine bind_eq_ok_iff.mpr ⟨_, hindexer, map_eq_ok_iff.mpr ⟨([], _), ?_, rfl⟩⟩
    exact readSegments_eq_ok_nil_iff.mpr ⟨rfl, hblank.endsPath⟩

/-- A text ends with the last character of the whole, if it holds any. -/
theorem eq_nil_or_mem_of_append_eq_concat {front more text : List Char} {c : Char}
    (h : front ++ more = text ++ [c]) : more = [] ∨ c ∈ more := by
  rcases List.eq_nil_or_concat more with rfl | ⟨more, d, rfl⟩
  · exact Or.inl rfl
  · rw [List.concat_eq_append, ← List.append_assoc] at h
    obtain ⟨-, hlast⟩ := List.append_inj' h rfl
    simp [List.concat_eq_append, hlast]

/-- The last two characters are those with which the filter ends. -/
theorem eq_closer_of_suffix {rest behind : List Char} (hrest : rest <:+ text ++ [')', ']'])
    (hclose : skipSpaces rest = ']' :: behind) (hbehind : IsBlank (behind.dropWhile (· == '.'))) :
    rest = [']'] := by
  obtain ⟨spaces, hspaces, hblank⟩ := exists_isBlank_append_skipSpaces rest
  obtain ⟨dots, after, rfl, hafter⟩ := isBlank_dropWhile_dot_iff.mp hbehind
  obtain ⟨front, hfront⟩ := hrest
  have hwhole : front ++ spaces ++ [']'] ++ (List.replicate dots '.' ++ after) =
      text ++ [')'] ++ [']'] := by
    rw [List.append_cons text, hspaces, hclose] at hfront
    simpa using hfront
  have hcloser : ']' ∉ List.replicate dots '.' ++ after := by
    rw [List.mem_append]
    rintro (hdot | hspace)
    · exact absurd (List.eq_of_mem_replicate hdot) (by decide)
    · exact absurd (hafter ']' hspace) (by decide)
  have hparen : ')' ∉ spaces := fun hmem => absurd (hblank ')' hmem) (by decide)
  have hnil := (eq_nil_or_mem_of_append_eq_concat hwhole).resolve_right hcloser
  rw [hnil, List.append_nil] at hwhole
  obtain rfl : spaces = [] :=
    (eq_nil_or_mem_of_append_eq_concat (List.append_cancel_right hwhole)).resolve_right hparen
  rw [hspaces, hclose, hnil, List.nil_append]

/-- The filters that are expressions by themselves. -/
theorem compileWithin_filterExpression_iff {word : String} {conditions : List Condition} :
    compileWithin limit (filterExpression word) = .ok [.filter conditions] ↔
      readConditions (conditionReader limit limit) (word.toList ++ [')', ']']) =
        .ok (conditions, [']']) := by
  rw [compileWithin_eq_ok_iff, toList_filterExpression, readExpression_filter_eq_ok_iff]
  constructor
  · rintro ⟨rest, behind, hread, hclose, hbehind⟩
    obtain ⟨front, htext, -⟩ :=
      selfDelimiting_readConditions (looksOneAhead_conditionReader limit limit) hread
    rw [hread, eq_closer_of_suffix (htext ▸ List.suffix_append front rest) hclose hbehind]
  · intro hread
    exact ⟨[']'], [], hread, skipSpaces_cons_of_ne (by decide) [], List.forall_mem_nil _⟩

end

/-! ### Evaluation -/

/-- Conditions are satisfied if each of them holds. -/
theorem conditionsSatisfied_eq_all (conditions : List Condition) (child : Json) :
    conditionsSatisfied conditions child =
      conditions.all fun condition => condition.holds child := by
  induction conditions with
  | nil => rfl
  | cons condition conditions ih =>
    rw [conditionsSatisfied, ih, ← condition.test_snd child]
    rfl

/-- A filter selects the children for which its conditions hold. -/
theorem drain_evaluate_filter (strict : Bool) (conditions : List Condition) (root : Json) :
    (evaluate strict [.filter conditions] root).drain =
      (root.children.filter fun child => conditions.all fun condition => condition.holds child,
        none) := by
  rw [drain_evaluate_singleton]
  simp only [← conditionsSatisfied_eq_all]
  exact drained_map_ok _

/-- If the last condition of one filter is a comparison, those of another one can be put behind it
with `&&` in between.  The filter has the conditions of both, and a child is selected by it exactly
if it is selected by both.  If that condition is on presence, the connective is refused: it stands
where an operator is expected. -/
theorem compileWithin_conjunction {limit : Nat} {text word : String}
    {conditions others : List Condition}
    (h : compileWithin limit (filterExpression text) = .ok [.filter conditions])
    (hothers : compileWithin limit (filterExpression word) = .ok [.filter others]) :
    ((∀ last ∈ conditions.getLast?, last.operator ≠ .present) →
      compileWithin limit (filterExpression (text ++ " && " ++ word)) =
        .ok [.filter (conditions ++ others)]) ∧
    ((∃ last ∈ conditions.getLast?, last.operator = .present) →
      compileWithin limit (filterExpression (text ++ " && " ++ word)) =
        .error ⟨.invalidOperator, text.toList.length + 5⟩) ∧
    ∀ strict root,
      (evaluate strict [.filter (conditions ++ others)] root).drain =
        (root.children.filter fun child =>
          (conditions.all fun condition => condition.holds child) &&
            others.all fun condition => condition.holds child, none) ∧
      ∀ child, child ∈ (evaluate strict [.filter (conditions ++ others)] root).drain.1 ↔
        child ∈ (evaluate strict [.filter conditions] root).drain.1 ∧
          child ∈ (evaluate strict [.filter others] root).drain.1 := by
  rw [compileWithin_filterExpression_iff] at h hothers
  have htext : (text ++ " && " ++ word).toList ++ [')', ']'] =
      text.toList ++ ' ' :: '&' :: '&' :: ' ' :: (word.toList ++ [')', ']']) := by
    simp
  refine ⟨fun hlast => ?_, fun hlast => ?_, fun strict root => ⟨?_, fun child => ?_⟩⟩
  · rw [compileWithin_filterExpression_iff, htext]
    exact readConditions_conjunction h hothers hlast
  · have hread := readConditions_connective_of_presence h hlast
      (List.cons_ne_nil '&' (' ' :: (word.toList ++ [')', ']'])))
    rw [← htext] at hread
    rw [compileWithin, toList_filterExpression, readExpression_filter_of_error hread]
    simp only [Except.mapError, Failure.toError, htext, List.length_cons, List.length_append]
    congr 2
    omega
  · simp only [drain_evaluate_filter, List.all_append]
  · simp only [drain_evaluate_filter, List.all_append, List.mem_filter, Bool.and_eq_true]
    tauto

/-- A comparison and a condition on presence behind it. -/
theorem compileWithin_conjunction_presence :
    let conditions : List Condition := [.comparison [.member (some "a")] .equal (.boolean true)]
    let others : List Condition := [.presence [.member (some "b")]]
    compileWithin 32 (filterExpression "@.a == true") = .ok [.filter conditions] ∧
      compileWithin 32 (filterExpression "@.b") = .ok [.filter others] ∧
      compileWithin 32 (filterExpression ("@.a == true" ++ " && " ++ "@.b")) =
        .ok [.filter (conditions ++ others)] := by
  intro conditions others
  have h : compileWithin 32 (filterExpression "@.a == true") = .ok [.filter conditions] := by
    rw [compileWithin_filterExpression_iff, readConditions_eq_bind]
    cbv
  have hothers : compileWithin 32 (filterExpression "@.b") = .ok [.filter others] := by
    rw [compileWithin_filterExpression_iff, readConditions_eq_bind]
    cbv
  have hlast : ∀ last ∈ conditions.getLast?, last.operator ≠ .present := by
    simp [conditions, Condition.comparison, Condition.operator]
  exact ⟨h, hothers, (compileWithin_conjunction h hothers).1 hlast⟩

/-- The other way round they are refused, though each of the two is a filter. -/
theorem compileWithin_conjunction_refused :
    compileWithin 32 (filterExpression "@.a") =
        .ok [.filter [.presence [.member (some "a")]]] ∧
      compileWithin 32 (filterExpression "@.b == true") =
        .ok [.filter [.comparison [.member (some "b")] .equal (.boolean true)]] ∧
      compileWithin 32 (filterExpression ("@.a" ++ " && " ++ "@.b == true")) =
        .error ⟨.invalidOperator, 8⟩ := by
  refine ⟨?_, ?_, ?_⟩
  · rw [compileWithin_filterExpression_iff, readConditions_eq_bind]
    cbv
  · rw [compileWithin_filterExpression_iff, readConditions_eq_bind]
    cbv
  · have hrun : ((compileWithin 32 (filterExpression ("@.a" ++ " && " ++ "@.b == true"))).map
        fun _ => ()) = .error ⟨.invalidOperator, 8⟩ := by
      decide +kernel
    exact map_eq_error_iff.mp hrun

end JsonSelect
