import JsonSelect.Proofs.Grammar.Refusal

/-!
# When a refusal is final

Whatever cannot be read fails in one of the three ways of `Refusal`.  For the readers of filters and
paths this goes by the level of nesting: without any level left conditions are refused as they
stand, and with one level more their paths are read with filters of one level less
(`accountsForFailures_conditionReader`).

An expression in which a character is refused is therefore refused whatever follows that character
(`compileWithin_eq_error_of_take_eq`).
-/

namespace JsonSelect

variable {α : Type}

/-! ### Conditions of a filter -/

/-- A reader of conditions that fails in one of the three ways, or that refuses every text as it
stands. -/
def ConditionReader.AccountsForFailures (nested : ConditionReader) : Prop :=
  (∃ cause : Cause, cause.refusesCharacter = false ∧
    ∀ text, nested.read text = .error ⟨cause, text⟩) ∨
  ∀ {text failure}, nested.read text = .error failure → Refusal nested.read text failure

section

variable {nested : ConditionReader} {text : List Char} {failure : Failure}

/-- Conditions are refused as one of them is, or behind one of them. -/
theorem refusal_of_readConditions (hn : nested.LooksOneAhead)
    (hf : ∀ {text failure}, nested.read text = .error failure → Refusal nested.read text failure)
    (h : readConditions nested text = .error failure) :
    Refusal (readConditions nested) text failure := by
  fun_induction readConditions nested text generalizing failure with
  | case1 text other hr =>
    obtain rfl := Except.error.inj h
    apply (hf hr).of_reader
    intro more other _ hother
    rw [readConditions_eq_bind]
    exact bind_eq_error_iff.mpr (Or.inl hother)
  | case2 => exact refusal_of_openFilter h
  | case3 => contradiction
  | case4 text condition c rest hr hc ih =>
    obtain ⟨front, rfl, hfront⟩ := hn hr
    obtain ⟨again, hagain, hskip⟩ := exists_afterConnective c rest
    have hwhole : front ++ c :: rest = (front ++ c :: again) ++ afterConnective c rest := by
      rw [List.append_assoc, List.cons_append, ← hagain]
    rw [hwhole]
    apply (ih (map_eq_error_iff.mp h)).prepend
    intro more other hmore hother
    rw [List.append_assoc, List.cons_append, readConditions_eq_bind]
    refine bind_eq_error_iff.mpr (Or.inr ⟨_, (hfront (c :: (again ++ more)) rfl).2, ?_⟩)
    simp only [afterCondition, if_neg hc, hskip more hmore]
    exact map_eq_error_iff.mpr hother

variable (hn : nested.LooksOneAhead) (hf : nested.AccountsForFailures)

include hn hf

/-- A filter is refused as its conditions are, or behind them. -/
theorem refusal_of_readFilter {close : Char} (h : readFilter nested close text = .error failure) :
    Refusal (readFilter nested close) text failure := by
  unfold readFilter at h
  split at h
  · next rest =>
    rcases bind_eq_error_iff.mp h with hread | ⟨⟨conditions, behind⟩, hconditions, hclose⟩
    · rcases hf with ⟨cause, hcause, hrefuses⟩ | hf
      · -- No condition is looked at, so that only the parenthesis has been seen.
        have hall : ∀ text, readConditions nested text = .error ⟨cause, text⟩ := by
          intro text
          rw [readConditions_eq_bind, hrefuses]
          rfl
        obtain rfl := Except.error.inj ((hall rest).symm.trans hread)
        refine .settled ['('] [] rest rfl (List.cons_ne_nil _ _) ?_ ?_
        · intro hc
          rw [hcause] at hc
          contradiction
        · intro more
          exact bind_eq_error_iff.mpr (Or.inl (hall more))
      · apply (refusal_of_readConditions hn hf hread).prepend ['(']
        intro more other _ hother
        exact bind_eq_error_iff.mpr (Or.inl hother)
    · obtain ⟨front, rfl, hfront⟩ := selfDelimiting_readConditions hn hconditions
      apply (refusal_of_closeIndexer hclose).skipSpaces_comp.prepend ('(' :: front)
      intro more other _ hother
      exact bind_eq_error_iff.mpr (Or.inr ⟨_, (hfront more trivial).2, hother⟩)
  · next hparen =>
    cases text with
    | nil => exact refusal_of_refuseInIndexer_nil h
    | cons c rest =>
      obtain rfl := Except.error.inj h
      apply refusal_of_cons
      intro more
      unfold readFilter
      split
      · next heq =>
        obtain ⟨rfl, -⟩ := List.cons.inj heq
        exact (hparen rest rfl).elim
      · rfl

/-- An indexer of any kind is refused as its own reader refuses it. -/
theorem refusal_of_readIndexer {close : Char}
    (h : readIndexer nested close text = .error failure) :
    Refusal (readIndexer nested close) text failure := by
  obtain ⟨spaces, htext, hskip⟩ := exists_skipSpaces text
  cases hr : skipSpaces text with
  | nil =>
    unfold readIndexer at h
    rw [hr] at h
    exact refusal_of_refuseInIndexer_nil h
  | cons c rest =>
    rw [hr] at htext hskip
    rw [readIndexer_of_skipSpaces hr] at h
    rw [htext]
    split at h
    · next hc =>
      subst hc
      apply (refusal_of_readQuotedName h).prepend
      intro more other hmore hother
      obtain ⟨more, rfl⟩ := List.head?_eq_some_iff.mp hmore
      rw [readIndexer_of_skipSpaces (hskip ('\'' :: more) rfl).2, if_pos rfl, hother]
    · next hc =>
      split at h
      · next hc' =>
        rw [List.append_cons]
        apply (refusal_of_readFilter hn hf h).prepend
        intro more other _ hother
        rw [← List.append_cons, readIndexer_of_skipSpaces (hskip (c :: more) rfl).2, if_neg hc,
          if_pos hc', hother]
      · next hc' =>
        apply (refusal_of_readArrayIndexer h).prepend
        intro more other hmore hother
        obtain ⟨more, rfl⟩ := List.head?_eq_some_iff.mp hmore
        rw [readIndexer_of_skipSpaces (hskip (c :: more) rfl).2, if_neg hc, if_neg hc', hother]

/-! ### Paths and conditions -/

/-- The segments of a path are refused as an indexer is, or between two of them. -/
theorem refusal_of_readSegments {inFilter descending afterIndexer : Bool}
    (h : readSegments nested inFilter descending afterIndexer text = .error failure) :
    Refusal (readSegments nested inFilter descending afterIndexer) text failure := by
  fun_induction readSegments nested inFilter descending afterIndexer text
    generalizing failure with
  | case1 => contradiction
  | case2 descending afterIndexer rest ih =>
    apply (ih h).prepend ['.', '.']
    intro more other _ hother
    exact readSegments_dots.trans hother
  | case3 descending afterIndexer rest hr ih =>
    have hdot : rest.head? ≠ some '.' := by
      intro hhead
      obtain ⟨more, hmore⟩ := List.head?_eq_some_iff.mp hhead
      exact hr more hmore
    apply (ih h).prepend ['.']
    intro more other hmore hother
    exact (readSegments_dot (hmore ▸ hdot)).trans hother
  | case4 descending afterIndexer c rest h₁ h₂ hc other hi =>
    obtain rfl := Except.error.inj h
    apply (refusal_of_readIndexer hn hf hi).prepend [c]
    intro more other _ hother
    rw [List.singleton_append, readSegments_opener hc]
    exact bind_eq_error_iff.mpr (Or.inl hother)
  | case5 descending afterIndexer c rest h₁ h₂ hc selector behind hi ih =>
    obtain ⟨front, rfl, hfront⟩ := selfDelimiting_readIndexer hn _ hi
    apply (ih (map_eq_error_iff.mp h)).prepend (c :: front)
    intro more other _ hother
    rw [List.cons_append, readSegments_opener hc]
    refine bind_eq_error_iff.mpr (Or.inr ⟨_, (hfront more trivial).2, ?_⟩)
    exact map_eq_error_iff.mpr hother
  | case6 descending c rest h₁ h₂ hc hname =>
    obtain rfl := Except.error.inj h
    exact refusal_of_cons fun more => readSegments_name_afterIndexer hname
  | case7 descending afterIndexer c rest h₁ h₂ hc hname hafter ih =>
    obtain rfl : afterIndexer = false := by simpa using hafter
    have hrun : ∀ d ∈ c :: rest.takeWhile (isNameChar inFilter), isNameChar inFilter d = true :=
      List.forall_mem_cons.mpr ⟨hname, List.all_eq_true.mp List.all_takeWhile⟩
    have hwhole : c :: rest = (c :: rest.takeWhile (isNameChar inFilter)) ++
        rest.dropWhile (isNameChar inFilter) := by
      rw [List.cons_append, List.takeWhile_append_dropWhile]
    rw [hwhole]
    apply (ih (map_eq_error_iff.mp h)).prepend
    intro more other hmore hother
    have hend : ∀ d ∈ more.head?, isNameChar inFilter d = false := fun d hd =>
      eq_false_of_mem_head?_dropWhile (hmore ▸ hd)
    rw [readSegments_name (List.cons_ne_nil _ _) hrun hend]
    exact map_eq_error_iff.mpr hother
  | case8 => contradiction

/-- A condition is refused as its path is, or behind it. -/
theorem refusal_of_readCondition (h : readCondition nested text = .error failure) :
    Refusal (readCondition nested) text failure := by
  obtain ⟨spaces, htext, hskip⟩ := exists_skipSpaces text
  cases hr : skipSpaces text with
  | nil =>
    unfold readCondition at h
    rw [hr] at h
    exact refusal_of_openFilter h
  | cons c rest =>
    rw [hr] at htext hskip
    have hread (more : List Char) : readCondition nested (spaces ++ c :: more) = _ :=
      readCondition_of_skipSpaces (hskip (c :: more) rfl).2
    rw [htext, hread] at h
    rw [htext]
    split at h
    · next hc =>
      simp only [if_pos hc] at hread
      rw [List.append_cons]
      rcases bind_eq_error_iff.mp h with hpath | ⟨⟨path, behind⟩, hpath, hcomparison⟩
      · apply (refusal_of_readSegments hn hf hpath).prepend
        intro more other _ hother
        rw [← List.append_cons, hread]
        exact bind_eq_error_iff.mpr (Or.inl hother)
      · obtain ⟨front, rfl, hfront⟩ := looksOneAhead_readSegments hn true false false hpath
        rw [← List.append_assoc]
        apply (refusal_of_readComparison hcomparison).prepend
        intro more other hmore hother
        rw [List.append_assoc, ← List.append_cons, hread]
        exact bind_eq_error_iff.mpr (Or.inr ⟨_, (hfront more hmore).2, hother⟩)
    · next hc =>
      simp only [if_neg hc] at hread
      obtain rfl := Except.error.inj h
      refine .settled spaces [c] rest rfl ?_ (fun _ => rfl) hread
      exact List.append_ne_nil_of_right_ne_nil _ (List.cons_ne_nil _ _)

end

/-- Without any level left every text is refused as it stands, and with more of them conditions
fail in one of the three ways. -/
theorem accountsForFailures_conditionReader (limit levels : Nat) :
    (conditionReader limit levels).AccountsForFailures := by
  induction levels with
  | zero => exact Or.inl ⟨.tooDeep limit, rfl, fun text => rfl⟩
  | succ levels ih =>
    exact Or.inr fun h => refusal_of_readCondition (looksOneAhead_conditionReader limit levels) ih h

/-! ### Whole expressions -/

section

variable {limit : Nat} {text : List Char} {failure : Failure}

/-- A character behind the end of a path is refused, and a space is so for what follows the
spaces. -/
theorem refusal_of_unexpectedInPath {reader : List Char → Except Failure α} {c : Char}
    {rest : List Char} (hrest : skipSpaces (c :: rest) ≠ [])
    (hread : ∀ more, skipSpaces (c :: more) ≠ [] →
      reader (c :: more) = .error ⟨.unexpectedInPath c, c :: more⟩) :
    Refusal reader (c :: rest) ⟨.unexpectedInPath c, c :: rest⟩ := by
  by_cases hc : c = ' '
  · subst hc
    rw [skipSpaces_space_cons] at hrest
    obtain ⟨spaces, hspaces, hskip⟩ := exists_skipSpaces rest
    obtain ⟨d, behind, hd⟩ := List.exists_cons_of_ne_nil hrest
    rw [hd] at hspaces hskip
    have hwhole : ' ' :: rest = (' ' :: spaces ++ [d]) ++ behind := by
      rw [List.append_assoc, List.cons_append, List.singleton_append, ← hspaces]
    rw [hwhole]
    refine .settled [] (' ' :: spaces ++ [d]) behind rfl (List.cons_ne_nil _ _) ?_ fun more => ?_
    · intro hspace
      contradiction
    · rw [List.nil_append, List.append_assoc, List.singleton_append, List.cons_append]
      apply hread
      rw [skipSpaces_space_cons, (hskip (d :: more) rfl).2]
      exact List.cons_ne_nil _ _
  · apply refusal_of_cons
    intro more
    apply hread
    rw [skipSpaces_cons_of_ne hc]
    exact List.cons_ne_nil _ _

/-- A path up to the end of the text is refused as its segments are, or behind them. -/
theorem refusal_of_readWholePath (h : readWholePath limit text = .error failure) :
    Refusal (readWholePath limit) text failure := by
  have hn : (conditionReader limit limit).LooksOneAhead := looksOneAhead_conditionReader _ _
  have hf : (conditionReader limit limit).AccountsForFailures :=
    accountsForFailures_conditionReader _ _
  rw [readWholePath_eq_bind] at h
  rcases bind_eq_error_iff.mp h with hsegments | ⟨⟨selectors, rest⟩, hsegments, hrest⟩
  · apply (refusal_of_readSegments hn hf hsegments).of_reader
    intro more other _ hother
    rw [readWholePath_eq_bind]
    exact bind_eq_error_iff.mpr (Or.inl hother)
  · dsimp only at hrest
    split at hrest
    · contradiction
    · next hspaces =>
      obtain rfl := Except.error.inj hrest
      obtain ⟨front, rfl, hfront⟩ := looksOneAhead_readSegments hn false false false hsegments
      cases rest with
      | nil => exact absurd rfl hspaces
      | cons c rest =>
        have hne : skipSpaces (c :: rest) ≠ [] := fun hnil => hspaces (List.isEmpty_iff.mpr hnil)
        have hbehind : Refusal (fun more => readWholePath limit (front ++ more)) (c :: rest)
            ⟨.unexpectedInPath c, c :: rest⟩ := by
          apply refusal_of_unexpectedInPath hne
          intro more hmore
          rw [readWholePath_eq_bind, (hfront (c :: more) rfl).2]
          exact if_neg fun hempty => hmore (List.isEmpty_iff.mp hempty)
        exact hbehind.prepend front fun _ hother => hother

/-- What follows the root is refused at its first character, or as a path. -/
theorem refusal_of_readAfterRoot (h : readAfterRoot limit text = .error failure) :
    Refusal (readAfterRoot limit) text failure := by
  unfold readAfterRoot at h
  split at h
  · contradiction
  · next c rest =>
    split at h
    · next hc =>
      apply (refusal_of_readWholePath h).of_reader
      intro more other hmore hother
      obtain ⟨more, rfl⟩ := List.head?_eq_some_iff.mp hmore
      rw [readAfterRoot, if_pos hc, hother]
    · next hc =>
      split at h
      · contradiction
      · next hspaces =>
        obtain rfl := Except.error.inj h
        apply refusal_of_unexpectedInPath fun hnil => hspaces (List.isEmpty_iff.mpr hnil)
        intro more hmore
        rw [readAfterRoot, if_neg hc, if_neg]
        exact fun hempty => hmore (List.isEmpty_iff.mp hempty)

/-- Every expression that cannot be read is unfinished, refused for what has been seen of it, or
lacks a literal. -/
theorem refusal_of_readExpression (h : readExpression limit text = .error failure) :
    Refusal (readExpression limit) text failure := by
  obtain ⟨spaces, htext, hskip⟩ := exists_skipSpaces text
  rw [htext]
  unfold readExpression at h
  split at h
  · next rest hr =>
    rw [hr] at hskip ⊢
    rw [List.append_cons]
    apply (refusal_of_readAfterRoot h).prepend
    intro more other _ hother
    rw [← List.append_cons, readExpression, (hskip ('$' :: more) rfl).2]
    exact hother
  · next hroot =>
    apply (refusal_of_readWholePath h).prepend
    intro more other hmore hother
    rw [readExpression, (hskip more hmore).2]
    split
    · next rest =>
      obtain ⟨behind, hbehind⟩ := List.head?_eq_some_iff.mp hmore.symm
      exact (hroot behind hbehind).elim
    · exact hother

/-- An expression that does not compile cannot be read. -/
theorem exists_of_compileWithin_eq_error {expression : String} {error : PathError}
    (h : compileWithin limit expression = .error error) :
    ∃ failure, readExpression limit expression.toList = .error failure ∧
      failure.toError expression.toList.length = error := by
  unfold compileWithin at h
  cases hr : readExpression limit expression.toList with
  | ok path =>
    rw [hr] at h
    cases h
  | error failure =>
    rw [hr] at h
    exact ⟨failure, rfl, Except.error.inj h⟩

/-- An expression that cannot be read is an error at the place of the failure. -/
theorem compileWithin_eq_error {expression : String}
    (h : readExpression limit expression.toList = .error failure) :
    compileWithin limit expression = .error (failure.toError expression.toList.length) := by
  rw [compileWithin, h]
  rfl

/-- The position of a failure is the number of characters in front of what remains. -/
theorem toError_append (cause : Cause) (front rest : List Char) :
    (Failure.mk cause rest).toError (front ++ rest).length = ⟨cause, front.length⟩ := by
  rw [Failure.toError, List.length_append, Nat.add_sub_cancel]

/-- Where a character is refused, every expression that is the same up to and including this
character is refused in the same way, whatever follows it. -/
theorem compileWithin_eq_error_of_take_eq {expression other : String} {error : PathError}
    (h : compileWithin limit expression = .error error)
    (hcause : error.cause.refusesCharacter = true)
    (hother : other.toList.take (error.position + 1) =
      expression.toList.take (error.position + 1)) :
    compileWithin limit other = .error error := by
  obtain ⟨failure, hread, rfl⟩ := exists_of_compileWithin_eq_error h
  have hcause' : failure.cause.refusesCharacter = true := hcause
  cases refusal_of_readExpression hread with
  | unfinished hopen =>
    rcases hopen with hopen | hopen
    all_goals
      rw [hopen] at hcause'
      contradiction
  | noLiteral front word htext hne hliteral =>
    rw [hliteral] at hcause'
    contradiction
  | settled front seen behind htext hne hseen hmore =>
    obtain ⟨c, rfl⟩ := List.length_eq_one_iff.mp (hseen hcause')
    rw [htext, toError_append] at hother ⊢
    have hfront : other.toList.take (front.length + 1) = front ++ [c] := by
      rw [hother, ← List.append_assoc]
      exact List.take_left' (by rw [List.length_append, List.length_singleton])
    obtain ⟨more, hmore'⟩ : ∃ more, other.toList = front ++ ([c] ++ more) := by
      refine ⟨other.toList.drop (front.length + 1), ?_⟩
      rw [← List.append_assoc, ← hfront, List.take_append_drop]
    have hrefused := hmore more
    rw [← hmore'] at hrefused
    rw [compileWithin_eq_error hrefused, hmore', toError_append]

/-- A refused character in a nested filter, with all that stands behind it exchanged. -/
theorem compileWithin_eq_error_of_take_eq_nested :
    let expression := "$.a[?(@[0] <> 'x' && b)]"
    let other := "$.a[?(@[0] <> 'x' && b']..["
    let error : PathError := ⟨.unexpectedInFilter 'b', 21⟩
    compileWithin 1 expression = .error error ∧
      error.cause.refusesCharacter = true ∧
      other.toList.take (error.position + 1) = expression.toList.take (error.position + 1) ∧
      compileWithin 1 other = .error error := by
  intro expression other error
  have hrun : (compileWithin 1 expression).map (fun _ => ()) = .error error := by
    decide +kernel
  have h : compileWithin 1 expression = .error error := map_eq_error_iff.mp hrun
  have hother : other.toList.take (error.position + 1) =
      expression.toList.take (error.position + 1) := by
    decide +kernel
  exact ⟨h, rfl, hother, compileWithin_eq_error_of_take_eq h rfl hother⟩

end

end JsonSelect
