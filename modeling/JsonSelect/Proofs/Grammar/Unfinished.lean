import JsonSelect.Proofs.Grammar.Finality

/-!
# Expressions that are cut short

The front of an expression that compiles can be refused only because it ends too early.  Whatever
is refused for what has been seen of it stays refused when something is put behind it, so that of
the three ways of `Refusal` two are left: an open indexer or filter, or a literal that is missing.
The second one arises only where a literal of the whole expression is cut (`LiteralSpan`).
-/

namespace JsonSelect

variable {limit : Nat} {text front word behind : List Char}

/-- A literal of an expression stands from `start` up to `stop`. -/
structure LiteralSpan (limit : Nat) (text : List Char) (start stop : Nat) : Prop where
  start_lt : start < stop
  stop_le : stop ≤ text.length
  /-- The characters between the two places are those of a literal. -/
  reads : ∃ literal, readLiteral (text.drop start) = .ok (literal, text.drop stop)
  /-- It is the reader of literals that reads them: what starts alike and is no literal is refused
  in this place as the reader of literals refuses it. -/
  expected : ∀ {other failure}, other.head? = (text.drop start).head? →
    readLiteral other = .error failure →
      readExpression limit (text.take start ++ other) = .error failure

/-- A literal that is complete in a text is complete in every longer one, so that one which needs
the longer text does not end before. -/
theorem length_le_of_readLiteral_append {rest : List Char} {literal : Literal} {failure : Failure}
    (hword : readLiteral word = .error failure)
    (h : readLiteral (word ++ behind) = .ok (literal, rest)) : rest.length ≤ behind.length := by
  by_contra hlong
  obtain ⟨consumed, hwhole, hread⟩ := looksOneAhead_readLiteral h
  -- What is left would start inside the word, and would be left of the word alone as well.
  rcases List.append_eq_append_iff.mp hwhole with ⟨after, rfl, rfl⟩ | ⟨left, rfl, rfl⟩
  · rw [List.length_append] at hlong
    omega
  · have hne : left ≠ [] := by
      rintro rfl
      exact hlong (Nat.le_refl _)
    obtain ⟨c, more, rfl⟩ := List.exists_cons_of_ne_nil hne
    have hok := (hread (c :: more) rfl).2
    rw [hword] at hok
    contradiction

/-- The literal that is read behind `front` in an expression, where the front part of it alone is
none. -/
theorem exists_literalSpan {failure : Failure} {path : List Selector}
    (hne : word ≠ []) (hword : readLiteral word = .error failure)
    (hmore : ∀ {more other}, more.head? = word.head? → readLiteral more = .error other →
      readExpression limit (front ++ more) = .error other)
    (hpath : readExpression limit (front ++ (word ++ behind)) = .ok path) :
    ∃ start stop, LiteralSpan limit (front ++ (word ++ behind)) start stop ∧
      start < (front ++ word).length ∧ (front ++ word).length ≤ stop := by
  have hhead : (word ++ behind).head? = word.head? := by
    obtain ⟨c, more, rfl⟩ := List.exists_cons_of_ne_nil hne
    rfl
  cases hr : readLiteral (word ++ behind) with
  | error other =>
    rw [hmore hhead hr] at hpath
    contradiction
  | ok result =>
    obtain ⟨literal, rest⟩ := result
    have hrest : rest <:+ word ++ behind := (endsWithin_readLiteral _).2 _ _ hr
    have hlength := length_le_of_readLiteral_append hword hr
    have hstart : (front ++ (word ++ behind)).drop front.length = word ++ behind := List.drop_left
    have hstop := List.suffix_iff_eq_drop.mp (hrest.trans (List.suffix_append front _))
    have hpos := List.length_pos_iff.mpr hne
    refine ⟨front.length, (front ++ (word ++ behind)).length - rest.length, ?_, ?_, ?_⟩
    · refine ⟨?_, Nat.sub_le _ _, ⟨literal, ?_⟩, ?_⟩
      · simp only [List.length_append]
        omega
      · rw [hstart, ← hstop]
        exact hr
      · intro other failure hother hfailure
        rw [List.take_left]
        rw [hstart] at hother
        exact hmore (hother.trans hhead) hfailure
    · rw [List.length_append]
      omega
    · simp only [List.length_append]
      omega

/-- An expression that compiles fails, when it is cut short, with an open indexer, an open filter
or a missing literal, and the last only where the cut is inside a literal or right behind it. -/
theorem cause_of_compileWithin_cut {cut rest : String} {path : List Selector} {error : PathError}
    (h : compileWithin limit (cut ++ rest) = .ok path)
    (hcut : compileWithin limit cut = .error error) :
    error.cause = .openIndexer ∨ error.cause = .openFilter ∨
      error.cause = .invalidLiteral ∧
        ∃ start stop, LiteralSpan limit (cut ++ rest).toList start stop ∧
          start < cut.length ∧ cut.length ≤ stop := by
  rw [compileWithin_eq_ok_iff, String.toList_append] at h
  obtain ⟨failure, hread, rfl⟩ := exists_of_compileWithin_eq_error hcut
  rw [String.toList_append, ← String.length_toList]
  cases refusal_of_readExpression hread with
  | unfinished hopen =>
    rcases hopen with hopen | hopen
    · exact Or.inl hopen
    · exact Or.inr (Or.inl hopen)
  | noLiteral front word htext hne hcause hword hmore =>
    refine Or.inr (Or.inr ⟨hcause, ?_⟩)
    rw [htext, List.append_assoc] at h
    rw [htext, List.append_assoc]
    exact exists_literalSpan hne hword hmore h
  | settled front seen behind htext hne hseen hmore =>
    rw [htext, List.append_assoc, List.append_assoc, hmore] at h
    contradiction

/-- A cut inside an escaped quote. -/
theorem cause_of_compileWithin_cut_escape :
    let cut := "$[?(@.a == 'it\\"
    let rest := "'s' && @)]"
    let error : PathError := ⟨.invalidLiteral, 15⟩
    (∃ path, compileWithin 1 (cut ++ rest) = .ok path) ∧
      compileWithin 1 cut = .error error ∧
      (error.cause = .openIndexer ∨ error.cause = .openFilter ∨
        error.cause = .invalidLiteral ∧
          ∃ start stop, LiteralSpan 1 (cut ++ rest).toList start stop ∧
            start < cut.length ∧ cut.length ≤ stop) := by
  intro cut rest error
  have hrun : (compileWithin 1 cut).map (fun _ => ()) = .error error := by
    decide +kernel
  have hcut : compileWithin 1 cut = .error error := map_eq_error_iff.mp hrun
  have hwhole : (compileWithin 1 (cut ++ rest)).map (fun _ => ()) = .ok () := by
    decide +kernel
  obtain ⟨path, h, -⟩ := map_eq_ok_iff.mp hwhole
  exact ⟨⟨path, h⟩, hcut, cause_of_compileWithin_cut h hcut⟩

end JsonSelect
