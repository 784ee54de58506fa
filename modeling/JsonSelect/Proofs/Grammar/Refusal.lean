import Mathlib.Tactic.Common
import JsonSelect.Proofs.Grammar.Locality

/-!
# Why an expression is refused

An expression that fails to be read is in one of three states (`Refusal`).  It may end too early,
inside an indexer or a filter.  It may be refused for what has been seen of it, and then nothing
that stands behind makes it readable.  Or there is no literal where one has to stand, and then the
failure is the one of the reader of literals.

Two of the states speak of what else may stand in a place of the text, so a refusal is carried from
a reader to the one that calls it by putting in front what has been read before
(`Refusal.prepend`).  That this is read as well in front of something else is what
`ReadsBefore` says.
-/

namespace JsonSelect

variable {α β γ : Type}

/-- Whether it is a character at a place, and nothing behind it, that cannot stand there.  A space
may stand at the end of a path, so that it is refused for what follows it. -/
def Cause.refusesCharacter : Cause → Bool
  | unexpectedInPath c => c != ' '
  | unexpectedInIndexer _ | unexpectedInFilter _ => true
  | unexpectedAfterIndexer _ | unknownEscape _ => true
  | _ => false

/-- How a reader comes to fail on a text. -/
inductive Refusal (reader : List Char → Except Failure α) (text : List Char) : Failure → Prop
  /-- The text ends inside an indexer or a filter. -/
  | unfinished {failure : Failure}
    (h : failure.cause = .openIndexer ∨ failure.cause = .openFilter) : Refusal reader text failure
  /-- The text is refused for the characters `front ++ seen`, whatever stands behind them.  Where a
  character is refused, it is the only one in `seen`. -/
  | settled {cause : Cause} (front seen behind : List Char)
    (htext : text = front ++ (seen ++ behind)) (hne : front ++ seen ≠ [])
    (hseen : cause.refusesCharacter = true → seen.length = 1)
    (hmore : ∀ more, reader (front ++ (seen ++ more)) = .error ⟨cause, seen ++ more⟩) :
    Refusal reader text ⟨cause, seen ++ behind⟩
  /-- The text ends with `word`, which stands in the place of a literal and is none.  Whatever else
  is no literal there makes the reader fail in the same way. -/
  | noLiteral {failure : Failure} (front word : List Char) (htext : text = front ++ word)
    (hne : word ≠ []) (hcause : failure.cause = .invalidLiteral)
    (hword : readLiteral word = .error failure)
    (hmore : ∀ {more other}, more.head? = word.head? → readLiteral more = .error other →
      reader (front ++ more) = .error other) :
    Refusal reader text failure

/-! ### Failures of composed readers -/

/-- A mapped outcome is a failure exactly if the outcome is. -/
theorem map_eq_error_iff {ε : Type} {outcome : Except ε α} {f : α → β} {error : ε} :
    outcome.map f = .error error ↔ outcome = .error error := by
  cases outcome <;> simp [Except.map]

/-- Two steps in a row fail if the first one does, or the second one after it. -/
theorem bind_eq_error_iff {ε : Type} {outcome : Except ε α} {f : α → Except ε β} {error : ε} :
    outcome.bind f = .error error ↔
      outcome = .error error ∨ ∃ a, outcome = .ok a ∧ f a = .error error := by
  cases outcome <;> simp [Except.bind]

section

variable {reader : List Char → Except Failure α} {reader' : List Char → Except Failure β}
  {text : List Char} {failure : Failure}

/-- What is read first goes in front of the refused text. -/
theorem Refusal.prepend (h : Refusal reader text failure) (front : List Char)
    (hread : ∀ {more other}, more.head? = text.head? → reader more = .error other →
      reader' (front ++ more) = .error other) :
    Refusal reader' (front ++ text) failure := by
  cases h with
  | unfinished h => exact .unfinished h
  | settled front' seen behind htext hne hseen hmore =>
    subst htext
    refine .settled (front ++ front') seen behind (List.append_assoc ..).symm ?_ hseen ?_
    · rw [List.append_assoc]
      exact List.append_ne_nil_of_right_ne_nil _ hne
    · intro more
      rw [List.append_assoc]
      refine hread ?_ (hmore more)
      obtain ⟨c, more', hfirst⟩ := List.exists_cons_of_ne_nil hne
      rw [← List.append_assoc, ← List.append_assoc, hfirst]
      rfl
  | noLiteral front' word htext hne hcause hword hmore =>
    subst htext
    refine .noLiteral (front ++ front') word (List.append_assoc ..).symm hne hcause hword ?_
    intro more other hhead hother
    rw [List.append_assoc]
    refine hread ?_ (hmore hhead hother)
    rw [List.head?_append, List.head?_append, hhead]

/-- A reader that fails where another one does. -/
theorem Refusal.of_reader (h : Refusal reader text failure)
    (hread : ∀ {more other}, more.head? = text.head? → reader more = .error other →
      reader' more = .error other) : Refusal reader' text failure :=
  h.prepend [] hread

/-- Skipping spaces first changes nothing. -/
theorem Refusal.afterSpaces (h : Refusal reader (skipSpaces text) failure)
    (hread : ∀ {more rest other}, rest.head? = (skipSpaces text).head? → skipSpaces more = rest →
      reader rest = .error other → reader' more = .error other) :
    Refusal reader' text failure := by
  obtain ⟨spaces, htext, hskip⟩ := exists_skipSpaces text
  rw [htext]
  apply h.prepend
  intro more other hmore hother
  exact hread hmore (hskip more hmore).2 hother

/-- A reader behind spaces. -/
theorem Refusal.skipSpaces_comp (h : Refusal reader (skipSpaces text) failure) :
    Refusal (fun more => reader (skipSpaces more)) text failure := by
  apply h.afterSpaces
  rintro more _ other - rfl hother
  exact hother

/-- The end of the text inside a filter. -/
theorem refusal_of_openFilter {rest : List Char}
    (h : (.error ⟨.openFilter, rest⟩ : Except Failure β) = .error failure) :
    Refusal reader text failure := by
  obtain rfl := Except.error.inj h
  exact .unfinished (Or.inr rfl)

/-- A character that is refused as soon as it is seen. -/
theorem refusal_of_cons {c : Char} {rest : List Char} {cause : Cause}
    (hmore : ∀ more, reader (c :: more) = .error ⟨cause, c :: more⟩) :
    Refusal reader (c :: rest) ⟨cause, c :: rest⟩ :=
  .settled [] [c] rest rfl (List.cons_ne_nil _ _) (fun _ => rfl) hmore

end

/-! ### Array indexers -/

/-- A reader that fails for the index characters at the front of its text. -/
def FailsByIndexWord (token : List Char → Except Failure γ) : Prop :=
  ∀ {text failure}, token text = .error failure → ∃ cause : Cause,
    cause.refusesCharacter = false ∧ failure = ⟨cause, text⟩ ∧
      ∀ {other}, indexWord other = indexWord text → token other = .error ⟨cause, other⟩

/-- An index is refused for its index characters. -/
theorem failsByIndexWord_readIndex : FailsByIndexWord readIndex := by
  intro text failure h
  unfold readIndex at h ⊢
  dsimp only at h
  split at h
  · next hempty =>
    refine ⟨.indexExpected, rfl, (Except.error.inj h).symm, ?_⟩
    intro other hword
    rw [hword, if_pos hempty]
  · next hempty =>
    split at h
    · contradiction
    · next hread =>
      refine ⟨_, rfl, (Except.error.inj h).symm, ?_⟩
      intro other hword
      simp only [hword, if_neg hempty, hread]

/-- So is an index that may be missing. -/
theorem failsByIndexWord_readOptionalIndex : FailsByIndexWord readOptionalIndex := by
  intro text failure h
  unfold readOptionalIndex at h ⊢
  split at h
  · contradiction
  · next hempty =>
    obtain ⟨cause, hcause, hfailure, hother⟩ := failsByIndexWord_readIndex (map_eq_error_iff.mp h)
    refine ⟨cause, hcause, hfailure, ?_⟩
    intro other hword
    rw [hword, if_neg hempty, hother hword]
    rfl

section

variable {reader : List Char → Except Failure α} {reader' : List Char → Except Failure β} {c : Char}
  {text rest : List Char} {failure : Failure} (hafter : afterIndexWord text = c :: rest)

include hafter

/-- The delimiter behind an index is refused. -/
theorem refusal_of_delimiter {cause : Cause}
    (hread : ∀ {whole more}, indexWord whole = indexWord text →
      afterIndexWord whole = c :: more → reader whole = .error ⟨cause, c :: more⟩) :
    Refusal reader text ⟨cause, c :: rest⟩ := by
  obtain ⟨front, htext, hfront⟩ := exists_afterIndexWord text
  rw [hafter] at htext hfront
  refine .settled front [c] rest htext (List.append_ne_nil_of_right_ne_nil _ (List.cons_ne_nil _ _))
    (fun _ => rfl) ?_
  intro more
  obtain ⟨hword, hmore⟩ := hfront (c :: more) rfl
  exact hread hword hmore

/-- The index in front of a delimiter is refused. -/
theorem refusal_of_indexWord {token : List Char → Except Failure γ}
    (htoken : FailsByIndexWord token) (h : token text = .error failure)
    (hread : ∀ {whole more other}, indexWord whole = indexWord text →
      afterIndexWord whole = c :: more → token whole = .error other → reader whole = .error other) :
    Refusal reader text failure := by
  obtain ⟨front, htext, hfront⟩ := exists_afterIndexWord text
  obtain ⟨cause, hcause, rfl, hother⟩ := htoken h
  rw [hafter] at htext hfront
  have hseen : text = (front ++ [c]) ++ rest := by
    rw [htext, List.append_cons]
  have hfailure : (⟨cause, text⟩ : Failure) = ⟨cause, (front ++ [c]) ++ rest⟩ :=
    congrArg (Failure.mk cause) hseen
  rw [hfailure]
  refine .settled [] (front ++ [c]) rest hseen ?_ ?_ ?_
  · rw [List.nil_append]
    exact List.append_ne_nil_of_right_ne_nil _ (List.cons_ne_nil _ _)
  · intro hrefuses
    rw [hcause] at hrefuses
    contradiction
  · intro more
    rw [List.nil_append, ← List.append_cons]
    obtain ⟨hword, hmore⟩ := hfront (c :: more) rfl
    exact hread hword hmore (hother hword)

/-- What stands behind an index and a delimiter is refused. -/
theorem Refusal.prependIndex (h : Refusal reader (skipSpaces rest) failure)
    (hread : ∀ {whole more other}, indexWord whole = indexWord text →
      afterIndexWord whole = c :: more → reader (skipSpaces more) = .error other →
      reader' whole = .error other) :
    Refusal reader' text failure := by
  obtain ⟨front, htext, hfront⟩ := exists_afterIndexWord text
  rw [hafter] at htext hfront
  rw [htext, List.append_cons]
  apply h.skipSpaces_comp.prepend
  intro more other _ hother
  rw [← List.append_cons]
  obtain ⟨hword, hmore⟩ := hfront (c :: more) rfl
  exact hread hword hmore hother

end

/-- The end of the text inside an indexer. -/
theorem refusal_of_refuseInIndexer_nil {reader : List Char → Except Failure α} {text : List Char}
    {failure : Failure} (h : (refuseInIndexer [] : Reading β) = .error failure) :
    Refusal reader text failure := by
  obtain rfl := Except.error.inj h
  exact .unfinished (Or.inl rfl)

section

variable {close : Char} {text : List Char} {failure : Failure}

/-- What stands in the place of a closer is refused by itself. -/
theorem refusal_of_closeIndexer {selector : Selector}
    (h : closeIndexer close selector text = .error failure) :
    Refusal (closeIndexer close selector) text failure := by
  cases text with
  | nil => exact refusal_of_refuseInIndexer_nil h
  | cons c rest =>
    by_cases hc : c = close
    · rw [closeIndexer, if_pos hc] at h
      contradiction
    · rw [closeIndexer, if_neg hc] at h
      obtain rfl := Except.error.inj h
      apply refusal_of_cons
      intro more
      rw [closeIndexer, if_neg hc]
      rfl

/-- Indexes are refused as one of them is, or at the character behind it. -/
theorem refusal_of_readIndexes (h : readIndexes close text = .error failure) :
    Refusal (readIndexes close) text failure := by
  fun_induction readIndexes close text generalizing failure with
  | case1 => exact refusal_of_refuseInIndexer_nil h
  | case2 text rest hr =>
    apply refusal_of_indexWord hr failsByIndexWord_readIndex (map_eq_error_iff.mp h)
    intro whole more other _ hafter hother
    rw [readIndexes_of_afterIndexWord hafter, if_pos rfl]
    exact map_eq_error_iff.mpr hother
  | case3 text rest hr hc ih =>
    rcases bind_eq_error_iff.mp h with h | ⟨index, hi, h⟩
    · apply refusal_of_indexWord hr failsByIndexWord_readIndex h
      intro whole more other _ hafter hother
      rw [readIndexes_of_afterIndexWord hafter, if_neg hc, if_pos rfl]
      exact bind_eq_error_iff.mpr (Or.inl hother)
    · apply (ih (map_eq_error_iff.mp h)).prependIndex hr
      intro whole more other hword hafter hother
      rw [readIndexes_of_afterIndexWord hafter, if_neg hc, if_pos rfl]
      refine bind_eq_error_iff.mpr (Or.inr ⟨index, readIndex_of_indexWord hi hword, ?_⟩)
      exact map_eq_error_iff.mpr hother
  | case4 text c rest hr hc hcomma =>
    obtain rfl := Except.error.inj h
    apply refusal_of_delimiter hr
    intro whole more _ hafter
    rw [readIndexes_of_afterIndexWord hafter, if_neg hc, if_neg hcomma]
    rfl

/-- The step of a slice is refused as an index is, at the character behind it, or as zero. -/
theorem refusal_of_readStep {start stop : Option Int64}
    (h : readStep close start stop text = .error failure) :
    Refusal (readStep close start stop) text failure := by
  unfold readStep at h
  split at h
  · exact refusal_of_refuseInIndexer_nil h
  · next c rest hr =>
    split at h
    · next hc =>
      rcases bind_eq_error_iff.mp h with h | ⟨step, hstep, h⟩
      · apply refusal_of_indexWord hr failsByIndexWord_readOptionalIndex h
        intro whole more other _ hafter hother
        simp only [readStep, hafter, if_pos hc]
        exact bind_eq_error_iff.mpr (Or.inl hother)
      · split at h
        · next hzero =>
          obtain rfl := Except.error.inj h
          apply refusal_of_delimiter hr
          intro whole more hword hafter
          simp only [readStep, hafter, if_pos hc]
          refine bind_eq_error_iff.mpr (Or.inr ⟨step, ?_, if_pos hzero⟩)
          exact readOptionalIndex_of_indexWord hstep hword
        · contradiction
    · next hc =>
      obtain rfl := Except.error.inj h
      apply refusal_of_delimiter hr
      intro whole more _ hafter
      simp only [readStep, hafter, if_neg hc]
      rfl

/-- The end of a slice is refused as an index is, at the character behind it, or in its step. -/
theorem refusal_of_readStop {start : Option Int64}
    (h : readStop close start text = .error failure) :
    Refusal (readStop close start) text failure := by
  unfold readStop at h
  split at h
  · exact refusal_of_refuseInIndexer_nil h
  · next c rest hr =>
    split at h
    · next hc =>
      apply refusal_of_indexWord hr failsByIndexWord_readOptionalIndex (map_eq_error_iff.mp h)
      intro whole more other _ hafter hother
      simp only [readStop, hafter, if_pos hc]
      exact map_eq_error_iff.mpr hother
    · next hc =>
      split at h
      · next hcolon =>
        rcases bind_eq_error_iff.mp h with h | ⟨stop, hstop, h⟩
        · apply refusal_of_indexWord hr failsByIndexWord_readOptionalIndex h
          intro whole more other _ hafter hother
          simp only [readStop, hafter, if_neg hc, if_pos hcolon]
          exact bind_eq_error_iff.mpr (Or.inl hother)
        · apply (refusal_of_readStep h).prependIndex hr
          intro whole more other hword hafter hother
          simp only [readStop, hafter, if_neg hc, if_pos hcolon]
          refine bind_eq_error_iff.mpr (Or.inr ⟨stop, ?_, hother⟩)
          exact readOptionalIndex_of_indexWord hstop hword
      · next hcolon =>
        obtain rfl := Except.error.inj h
        apply refusal_of_delimiter hr
        intro whole more _ hafter
        simp only [readStop, hafter, if_neg hc, if_neg hcolon]
        rfl

/-- An array indexer is refused as one of its kinds is. -/
theorem refusal_of_readArrayIndexer (h : readArrayIndexer close text = .error failure) :
    Refusal (readArrayIndexer close) text failure := by
  unfold readArrayIndexer at h
  split at h
  · exact refusal_of_refuseInIndexer_nil h
  · next c rest hr =>
    split at h
    · next hc =>
      apply refusal_of_indexWord hr failsByIndexWord_readIndex (map_eq_error_iff.mp h)
      intro whole more other _ hafter hother
      simp only [readArrayIndexer, hafter, if_pos hc]
      exact map_eq_error_iff.mpr hother
    · next hc =>
      split at h
      · next hcomma =>
        rcases bind_eq_error_iff.mp h with h | ⟨index, hi, h⟩
        · apply refusal_of_indexWord hr failsByIndexWord_readIndex h
          intro whole more other _ hafter hother
          simp only [readArrayIndexer, hafter, if_neg hc, if_pos hcomma]
          exact bind_eq_error_iff.mpr (Or.inl hother)
        · apply (refusal_of_readIndexes (map_eq_error_iff.mp h)).prependIndex hr
          intro whole more other hword hafter hother
          simp only [readArrayIndexer, hafter, if_neg hc, if_pos hcomma]
          refine bind_eq_error_iff.mpr (Or.inr ⟨index, readIndex_of_indexWord hi hword, ?_⟩)
          exact map_eq_error_iff.mpr hother
      · next hcomma =>
        split at h
        · next hcolon =>
          rcases bind_eq_error_iff.mp h with h | ⟨start, hstart, h⟩
          · apply refusal_of_indexWord hr failsByIndexWord_readOptionalIndex h
            intro whole more other _ hafter hother
            simp only [readArrayIndexer, hafter, if_neg hc, if_neg hcomma, if_pos hcolon]
            exact bind_eq_error_iff.mpr (Or.inl hother)
          · apply (refusal_of_readStop h).prependIndex hr
            intro whole more other hword hafter hother
            simp only [readArrayIndexer, hafter, if_neg hc, if_neg hcomma, if_pos hcolon]
            refine bind_eq_error_iff.mpr (Or.inr ⟨start, ?_, hother⟩)
            exact readOptionalIndex_of_indexWord hstart hword
        · next hcolon =>
          split at h
          · next hstar =>
            apply (refusal_of_closeIndexer h).prependIndex hr
            intro whole more other hword hafter hother
            simp only [readArrayIndexer, hafter, if_neg hc, if_neg hcomma, if_neg hcolon]
            rw [hword, if_pos hstar, hother]
          · next hstar =>
            obtain rfl := Except.error.inj h
            apply refusal_of_delimiter hr
            intro whole more hword hafter
            simp only [readArrayIndexer, hafter, if_neg hc, if_neg hcomma, if_neg hcolon]
            rw [hword, if_neg hstar]
            rfl

end

/-! ### Quoted texts, operators and literals -/

/-- A character that is neither a quote nor a backslash stands for itself. -/
theorem readQuoted_cons {c : Char} (hquote : c ≠ '\'') (hescape : c ≠ '\\') (body : List Char) :
    readQuoted (c :: body) = (readQuoted body).map fun (text, rest) => (c :: text, rest) := by
  rw [readQuoted]
  · exact hquote
  · rintro rfl
    exact absurd rfl hescape
  · rintro d rest rfl
    exact absurd rfl hescape

/-- A character that cannot be escaped is refused, whatever stands behind it. -/
theorem exists_of_readQuoted_eq_unknownEscape {body rest : List Char} {c : Char}
    (h : readQuoted body = .error (.unknownEscape c rest)) :
    ∃ front behind, body = front ++ c :: behind ∧ rest = c :: behind ∧
      ∀ more, readQuoted (front ++ c :: more) = .error (.unknownEscape c (c :: more)) := by
  fun_induction readQuoted body with
  | case1 | case2 | case3 => cases h
  | case4 d body hd ih =>
    obtain ⟨front, behind, rfl, hrest, hmore⟩ := ih (map_eq_error_iff.mp h)
    refine ⟨'\\' :: d :: front, behind, rfl, hrest, fun more => ?_⟩
    rw [List.cons_append, List.cons_append, readQuoted, if_pos hd, hmore]
    rfl
  | case5 d body hd =>
    obtain ⟨rfl, rfl⟩ := QuoteFault.unknownEscape.inj (Except.error.inj h)
    refine ⟨['\\'], body, rfl, rfl, fun more => ?_⟩
    rw [List.singleton_append, readQuoted, if_neg hd]
  | case6 d body hquote hlast hescape ih =>
    obtain ⟨front, behind, rfl, hrest, hmore⟩ := ih (map_eq_error_iff.mp h)
    have hd : d ≠ '\\' := by
      rintro rfl
      obtain ⟨first, others, hbody⟩ := List.exists_cons_of_ne_nil
        (List.append_ne_nil_of_right_ne_nil front (List.cons_ne_nil c behind))
      exact hescape first others rfl hbody
    refine ⟨d :: front, behind, rfl, hrest, fun more => ?_⟩
    rw [List.cons_append, readQuoted_cons hquote hd, hmore]
    rfl

/-- A quoted name is refused in its text, as empty, or behind the closing quote. -/
theorem refusal_of_readQuotedName {close : Char} {body : List Char} {failure : Failure}
    (h : readQuotedName close ('\'' :: body) = .error failure) :
    Refusal (readQuotedName close) ('\'' :: body) failure := by
  unfold readQuotedName at h
  rw [List.drop_succ_cons, List.drop_zero] at h
  split at h
  · next name rest hr =>
    obtain ⟨front, rfl, hfront⟩ := exists_readQuoted hr
    have hread : ∀ more, readQuoted (('\'' :: (front ++ more)).drop 1) = .ok (name, more) := hfront
    split at h
    · next hempty =>
      obtain rfl := Except.error.inj h
      refine .settled [] ('\'' :: front) rest rfl (List.cons_ne_nil _ _) ?_ fun more => ?_
      · intro hrefuses
        contradiction
      · rw [List.nil_append, List.cons_append]
        simp only [readQuotedName, hread, if_pos hempty]
    · next hne =>
      apply (refusal_of_closeIndexer h).skipSpaces_comp.prepend ('\'' :: front)
      intro more other _ hother
      rw [List.cons_append]
      simp only [readQuotedName, hread, if_neg hne]
      exact hother
  · obtain rfl := Except.error.inj h
    exact .unfinished (Or.inl rfl)
  · next c rest hr =>
    obtain rfl := Except.error.inj h
    obtain ⟨front, behind, rfl, rfl, hmore⟩ := exists_of_readQuoted_eq_unknownEscape hr
    refine .settled ('\'' :: front) [c] behind rfl (List.cons_ne_nil _ _) (fun _ => rfl) ?_
    intro more
    have hread : readQuoted (('\'' :: (front ++ c :: more)).drop 1) =
        .error (.unknownEscape c (c :: more)) := hmore more
    rw [List.singleton_append, List.cons_append]
    simp only [readQuotedName, hread]

/-- Two characters decide that there is no operator. -/
theorem refusal_of_readOperator {text : List Char} {failure : Failure}
    (h : readOperator text = .error failure) : Refusal readOperator text failure := by
  unfold readOperator at h
  split at h
  case h_1 | h_2 => exact refusal_of_openFilter h
  case h_10 hnil hlast hequal hunequal hunequal' hatMost hless hatLeast hgreater =>
    obtain rfl := Except.error.inj h
    obtain _ | ⟨c, _ | ⟨d, rest⟩⟩ := text
    · exact absurd rfl hnil
    · exact absurd rfl (hlast c)
    · refine .settled [] [c, d] rest rfl (List.cons_ne_nil _ _) ?_ fun more => ?_
      · intro hrefuses
        contradiction
      · change readOperator (c :: d :: more) = .error ⟨.invalidOperator, c :: d :: more⟩
        rw [readOperator]
        · rintro ⟨⟩
        · rintro other ⟨⟩
        · rintro other ⟨⟩
          exact hequal rest rfl
        · rintro other ⟨⟩
          exact hunequal rest rfl
        · rintro other ⟨⟩
          exact hunequal' rest rfl
        · rintro other ⟨⟩
          exact hatMost rest rfl
        · rintro other ⟨⟩
          exact hless (d :: rest) rfl
        · rintro other ⟨⟩
          exact hatLeast rest rfl
        · rintro other ⟨⟩
          exact hgreater (d :: rest) rfl
  all_goals contradiction

/-- Where no literal can be read, none is there, or a character in it is refused. -/
theorem refusal_of_readLiteral {text : List Char} (hne : text ≠ []) {failure : Failure}
    (h : readLiteral text = .error failure) : Refusal readLiteral text failure := by
  by_cases hcause : failure.cause = .invalidLiteral
  · exact .noLiteral [] text rfl hne hcause h fun _ hother => hother
  · unfold readLiteral at h
    split at h
    · next body =>
      split at h
      · contradiction
      · obtain rfl := Except.error.inj h
        exact absurd rfl hcause
      · next c rest hr =>
        obtain rfl := Except.error.inj h
        obtain ⟨front, behind, rfl, rfl, hmore⟩ := exists_of_readQuoted_eq_unknownEscape hr
        refine .settled ('\'' :: front) [c] behind rfl (List.cons_ne_nil _ _) (fun _ => rfl) ?_
        intro more
        simp only [List.cons_append, List.nil_append, readLiteral, hmore]
    case h_2 | h_3 | h_4 => contradiction
    · split at h
      · split at h
        · contradiction
        · obtain rfl := Except.error.inj h
          exact absurd rfl hcause
      · obtain rfl := Except.error.inj h
        exact absurd rfl hcause
    · exact absurd rfl hne

section

variable {path : List Selector} {text : List Char} {failure : Failure}

/-- What follows an operator is refused as its literal is, or unfinished. -/
theorem refusal_of_afterOperator {operator : Operator}
    (h : afterOperator path operator text = .error failure) :
    Refusal (afterOperator path operator) text failure := by
  unfold afterOperator at h
  split at h
  · exact refusal_of_openFilter h
  · next htext =>
    rcases bind_eq_error_iff.mp h with h | ⟨⟨literal, behind⟩, -, h⟩
    · have hne : skipSpaces text ≠ [] := fun hnil => htext (List.isEmpty_iff.mpr hnil)
      apply (refusal_of_readLiteral hne h).afterSpaces
      rintro more rest other hhead hskip hother
      rw [afterOperator, hskip, isEmpty_eq_of_head? hhead, if_neg htext]
      exact bind_eq_error_iff.mpr (Or.inl hother)
    · dsimp only at h
      split at h
      · exact refusal_of_openFilter h
      · contradiction

/-- What follows a path is refused as its operator or its literal is, or unfinished. -/
theorem refusal_of_readComparison (h : readComparison path text = .error failure) :
    Refusal (readComparison path) text failure := by
  obtain ⟨spaces, htext, hskip⟩ := exists_skipSpaces text
  cases hr : skipSpaces text with
  | nil =>
    unfold readComparison at h
    rw [hr] at h
    exact refusal_of_openFilter h
  | cons c rest =>
    rw [hr] at htext hskip
    rw [readComparison_of_skipSpaces hr] at h
    rw [htext]
    split at h
    · contradiction
    · next hc =>
      rcases bind_eq_error_iff.mp h with h | ⟨⟨operator, behind⟩, ho, h⟩
      · apply (refusal_of_readOperator h).prepend
        intro more other hmore hother
        obtain ⟨more, rfl⟩ := List.head?_eq_some_iff.mp hmore
        rw [readComparison_of_skipSpaces (hskip (c :: more) rfl).2, if_neg hc]
        exact bind_eq_error_iff.mpr (Or.inl hother)
      · obtain ⟨front, hfront, hoperator⟩ := looksOneAhead_readOperator ho
        rw [hfront, ← List.append_assoc]
        apply (refusal_of_afterOperator h).prepend
        intro more other hmore hother
        obtain ⟨hhead, hread⟩ := hoperator more hmore
        obtain ⟨-, hstart⟩ := hskip (front ++ more) hhead
        obtain ⟨more', hmore'⟩ := List.head?_eq_some_iff.mp hhead
        rw [hmore'] at hstart hread
        rw [List.append_assoc, hmore', readComparison_of_skipSpaces hstart, if_neg hc]
        exact bind_eq_error_iff.mpr (Or.inr ⟨_, hread, hother⟩)

end

end JsonSelect
