import JsonSelect.Proofs.Cursor.Path

/-!
# The discipline of the cursor

An expression is read with a cursor as it is compiled: the traced reader comes to an end, and with
the same result.  On its way the cursor never goes back and never leaves the text, no text is taken
between positions in the wrong order, no bound of a slice is stored in a slot that does not exist,
and every reader of paths, indexers and conditions leaves the cursor where its caller takes it to be
(`readExpression_traced`).

How many calls are nested is bounded by the length of the expression alone, whatever the limit for
the depth is.
-/

namespace JsonSelect

variable {text rest : List Char} {cursor : Cursor} {calls limit : Nat}

/-- The traced reader has read the same. -/
def IsRead (found value : List Selector) (_ : Cursor) : Prop :=
  value = found

/-- A result that corresponds to an outcome is the outcome, with its failure as an error. -/
theorem Corresponds.eq_mapError {outcome : Except Failure (List Selector)}
    {result : Except PathError (List Selector)}
    (h : Corresponds text IsRead outcome result cursor) :
    result = outcome.mapError fun failure => failure.toError text.length := by
  rcases outcome with failure | selectors <;> rcases result with error | value
  · exact congrArg Except.error h
  · exact h.elim
  · exact h.elim
  · exact congrArg Except.ok h

/-- The whole text can be taken for a report. -/
theorem agrees_reportPath (selectors : List Selector) :
    Agrees text (Traced.reportPath selectors) cursor (.ok selectors) IsRead := by
  apply Agrees.of_inText
  intro hin
  have hget : (get : Traced Cursor) cursor = some (.ok cursor, cursor) := rfl
  refine Agrees.step hget .refl fun _ => ?_
  rw [hin.1]
  refine Agrees.textBetween (List.append_nil text).symm (Nat.zero_add _) le_rfl fun _ _ _ => ?_
  exact Agrees.pure rfl

/-- A path to the end of the text. -/
theorem agrees_readWholePath (hdepth : cursor.depth = 0) (hcalls : 2 * cursor.rest.length < calls) :
    Agrees text (Traced.readWholePath calls limit cursor.position) cursor
      (readWholePath limit cursor.rest) IsRead := by
  have hnested := @readsConditions_conditionReader text limit 0 limit (Nat.zero_add limit)
  rw [readWholePath_eq_bind]
  refine (agrees_readSegments hnested hdepth hcalls).bind ?_
  rintro ⟨selectors, remaining⟩ _ after - - ⟨rfl, rfl⟩
  dsimp only
  apply Agrees.of_inText
  intro hin
  cases hrest : after.rest with
  | nil =>
    simp only [List.isEmpty_nil, skipSpaces_nil, if_true]
    exact agrees_reportPath selectors
  | cons c rest =>
    rw [if_neg (by simp)]
    apply Agrees.position
    apply Agrees.current?
    refine Agrees.skipSpaces fun last _ hlast => ?_
    apply Agrees.current?
    rw [hlast, hrest]
    cases hskip : skipSpaces (c :: rest) with
    | nil =>
      simp only [List.isEmpty_nil, if_true]
      exact agrees_reportPath selectors
    | cons d more =>
      have hfail : Agrees text (Traced.failAt (.unexpectedInPath c) after.position) last
          (.error ⟨.unexpectedInPath c, c :: rest⟩) IsRead := by
        rw [← hrest, hin.rest_eq]
        exact Agrees.failAt hin.2
      rw [if_neg (by simp)]
      exact hfail

/-- What follows the root of an expression. -/
theorem agrees_readAfterRoot (hdepth : cursor.depth = 0) (hcalls : 2 * cursor.rest.length < calls) :
    Agrees text (Traced.readAfterRoot calls limit) cursor (readAfterRoot limit cursor.rest)
      IsRead := by
  apply Agrees.of_inText
  intro hin
  apply Agrees.position
  apply Agrees.current?
  cases hrest : cursor.rest with
  | nil => exact Agrees.pure rfl
  | cons c rest =>
    simp only [List.head?_cons, readAfterRoot]
    by_cases hpath : c = '.' ∨ c = '['
    · rw [if_pos hpath, if_pos hpath, ← hrest]
      exact agrees_readWholePath hdepth hcalls
    rw [if_neg hpath, if_neg hpath]
    by_cases hspace : c = ' '
    · rw [if_pos hspace]
      refine Agrees.skipSpaces fun last _ hlast => ?_
      apply Agrees.current?
      rw [hlast, hrest]
      cases hskip : skipSpaces (c :: rest) with
      | nil => exact Agrees.pure rfl
      | cons d more =>
        rw [if_neg (by simp), ← hrest, hin.rest_eq]
        exact Agrees.failAt hin.2
    · rw [if_neg hspace, skipSpaces_cons_of_ne hspace, if_neg (by simp)]
      exact Agrees.fail hrest

/-- A whole expression. -/
theorem agrees_readExpression (hdepth : cursor.depth = 0)
    (hcalls : 2 * cursor.rest.length < calls) :
    Agrees text (Traced.readExpression calls limit) cursor (readExpression limit cursor.rest)
      IsRead := by
  apply Agrees.current?
  cases hrest : cursor.rest with
  | nil =>
    have hread : readExpression limit [] = .ok [] := by
      rw [readExpression_of_head? (by simp) (by simp), readWholePath, readSegments_nil]
    rw [hread]
    exact Agrees.pure rfl
  | cons c rest =>
    refine Agrees.skipSpaces fun found hleads hfound => ?_
    apply Agrees.current?
    have hskip := length_skipSpaces_le cursor.rest
    have hdepth' := hleads.depth_eq.trans hdepth
    rw [← hfound] at hskip
    rw [readExpression, ← hrest, ← hfound]
    split
    · next h =>
      obtain ⟨more, hmore⟩ := List.head?_eq_some_iff.mp h
      rw [hmore, List.length_cons] at hskip
      refine Agrees.advance hmore fun after hstarted hafter _ => ?_
      rw [hmore, ← hafter]
      rw [← hafter] at hskip
      exact agrees_readAfterRoot (hstarted.depth_eq.trans hdepth') (by omega)
    · next h =>
      apply Agrees.position
      split
      · next hmore => exact absurd (congrArg List.head? hmore) h
      · exact agrees_readWholePath hdepth' (by omega)

/-- Every expression of `n` characters is read with a cursor by at most `2 * n + 1` nested calls, to
the result of compiling it.  The cursor has never gone back and never left the text, each of the
events on its way was proper, and the depth is back where it started. -/
theorem readExpression_traced (limit spare : Nat) (expression : String) :
    ∃ cursor, Traced.readExpression (2 * expression.length + 1 + spare) limit (.start expression) =
        some (compileWithin limit expression, cursor) ∧
      cursor.depth = 0 ∧ cursor.position ≤ expression.length ∧
      (cursor.trace.map TraceEntry.position ++ [cursor.position]).Pairwise (· ≤ ·) ∧
      ∀ entry ∈ cursor.trace, entry.position ≤ expression.length ∧
        entry.event.Proper expression.toList entry.position := by
  have hlength : expression.toList.length = expression.length := String.length_toList
  have hin : (Cursor.start expression).InText expression.toList := ⟨rfl, Nat.zero_le _⟩
  have hcalls : 2 * (Cursor.start expression).rest.length < 2 * expression.length + 1 + spare := by
    have hrest := hin.position_add_length
    omega
  obtain ⟨result, cursor, hrun, hleads, hread⟩ :=
    @agrees_readExpression expression.toList (.start expression) _ limit rfl hcalls hin
  obtain ⟨⟨-, hposition⟩, hdepth, entries, htrace, hsorted, hproper⟩ := hleads
  obtain rfl : cursor.trace = entries := htrace
  obtain rfl : result = compileWithin limit expression := hread.eq_mapError
  rw [hlength] at hposition
  have hsorted := (List.pairwise_cons.mp hsorted).2
  refine ⟨cursor, hrun, hdepth, hposition, hsorted, fun entry hentry => ?_⟩
  have hle := (List.pairwise_append.mp hsorted).2.2 entry.position
    (List.mem_map_of_mem hentry) cursor.position (List.mem_singleton_self _)
  exact ⟨hle.trans hposition, hproper entry hentry⟩

/-- All that happens in a short expression besides moves. -/
example :
    (Traced.readExpression 19 32 (.start "a[?(@.b)]")).map
        (fun found => found.2.trace.filter fun entry => entry.event ≠ .moved) =
      some [⟨.taken 0 1, 1⟩, ⟨.taken 6 7, 7⟩, ⟨.path true false, 7⟩, ⟨.condition true 4 0 0, 7⟩,
        ⟨.indexer '[' 1, 8⟩, ⟨.path false true, 9⟩, ⟨.taken 0 9, 9⟩] := by
  decide

end JsonSelect
