import JsonSelect.Proofs.Grammar.Refusal
import JsonSelect.Cursor.Readers
import JsonSelect.Proofs.Cursor.Trace

/-!
# Names, operators and literals with a cursor

The traced readers of quoted texts, operators and literals agree with those of the grammar.  The
loops over the characters of a quoted text and of a number pass at least one character with each
call, so that as many calls as there are characters, and one more for the end, are enough.
-/

namespace JsonSelect

variable {text rest : List Char} {cursor : Cursor} {calls : Nat}

/-! ### Runs of characters -/

/-- A word has been passed from the first position to the cursor, with characters of one kind
only. -/
structure Cursor.HasPassed (text : List Char) (p : Char → Bool) (first : Nat) (word : List Char)
    (cursor : Cursor) : Prop where
  drop_eq : text.drop first = word ++ cursor.rest
  all : ∀ c ∈ word, p c = true
  position_eq : first + word.length = cursor.position

namespace Cursor.HasPassed

variable {p : Char → Bool} {first : Nat} {word : List Char}

/-- Nothing has been passed yet. -/
theorem nil (hin : cursor.InText text) : cursor.HasPassed text p cursor.position [] :=
  ⟨hin.rest_eq.symm, List.forall_mem_nil _, rfl⟩

/-- One more character is passed. -/
theorem concat {c : Char} {after : Cursor} (h : cursor.HasPassed text p first word)
    (hrest : cursor.rest = c :: rest) (hc : p c = true) (hafter : after.rest = rest)
    (hposition : after.position = cursor.position + 1) :
    after.HasPassed text p first (word ++ [c]) := by
  refine ⟨?_, ?_, ?_⟩
  · rw [h.drop_eq, hrest, hafter, List.append_assoc, List.singleton_append]
  · exact List.forall_mem_append.mpr ⟨h.all, List.forall_mem_singleton.mpr hc⟩
  · rw [hposition, ← h.position_eq, List.length_append, List.length_singleton, Nat.add_assoc]

/-- The word ends where the current character is of another kind. -/
theorem takeWhile_eq (h : cursor.HasPassed text p first word)
    (hrest : ∀ c ∈ cursor.rest.head?, p c = false) : (text.drop first).takeWhile p = word := by
  rw [h.drop_eq, takeWhile_append_of_head? h.all hrest]

/-- Once all characters of a kind have been passed, what remains is what is left without them. -/
theorem dropWhile_eq (h : cursor.HasPassed text p first word)
    (hrest : ∀ c ∈ cursor.rest.head?, p c = false) :
    (text.drop first).dropWhile p = cursor.rest := by
  rw [h.drop_eq, dropWhile_append_of_head? h.all hrest]

end Cursor.HasPassed

/-! ### Quoted texts -/

/-- The failure that a fault in a quoted text amounts to. -/
def QuoteFault.failure (unclosed : Cause) : QuoteFault → Failure
  | .unclosed => ⟨unclosed, []⟩
  | .unknownEscape c rest => ⟨.unknownEscape c, rest⟩

/-- A quoted text behind its opening quote, or the failure that its fault amounts to. -/
def quotedOutcome (unclosed : Cause) (body : List Char) : Reading (List Char) :=
  (readQuoted body).mapError (QuoteFault.failure unclosed)

/-- A character that stands for itself, or an escaped one, goes in front of the text. -/
theorem quotedOutcome_cons (unclosed : Cause) {c : Char} (hquote : c ≠ '\'') (hescape : c ≠ '\\')
    (body : List Char) :
    quotedOutcome unclosed (c :: body) =
      (quotedOutcome unclosed body).map fun found => (c :: found.1, found.2) := by
  rw [quotedOutcome, quotedOutcome, readQuoted_cons hquote hescape]
  cases readQuoted body <;> rfl

/-- An escaped character stands for itself in front of the rest. -/
theorem quotedOutcome_escape (unclosed : Cause) {c : Char} (hc : c = '\'' ∨ c = '\\')
    (body : List Char) :
    quotedOutcome unclosed ('\\' :: c :: body) =
      (quotedOutcome unclosed body).map fun found => (c :: found.1, found.2) := by
  rw [quotedOutcome, quotedOutcome, readQuoted, if_pos hc.symm]
  cases readQuoted body <;> rfl

/-- A quoted text is read on as the grammar reads what remains of it. -/
theorem agrees_readQuotedFrom {unclosed : Cause} {read : List Char}
    (hcalls : cursor.rest.length < calls) :
    Agrees text (Traced.readQuotedFrom calls unclosed read) cursor
      (quotedOutcome unclosed cursor.rest)
      fun found value after => value = read ++ found.1 ∧ after.rest = found.2 := by
  induction calls generalizing cursor read with
  | zero => exact absurd hcalls (Nat.not_lt_zero _)
  | succ calls ih =>
    -- one more character has been read, and the rest is left to the next call
    have hnext {c : Char} {after : Cursor} (hlength : after.rest.length < calls) :
        Agrees text (Traced.readQuotedFrom calls unclosed (read ++ [c])) after
          ((quotedOutcome unclosed after.rest).map fun found => (c :: found.1, found.2))
          fun found value after => value = read ++ found.1 ∧ after.rest = found.2 := by
      refine (ih hlength).map _ fun found value last _ hread => ?_
      rw [hread.1, List.append_assoc]
      exact ⟨rfl, hread.2⟩
    apply Agrees.current?
    cases hrest : cursor.rest with
    | nil => exact Agrees.fail hrest
    | cons c rest =>
      rw [hrest, List.length_cons, Nat.succ_lt_succ_iff] at hcalls
      simp only [List.head?_cons]
      by_cases hquote : c = '\''
      · subst hquote
        rw [if_pos rfl]
        refine Agrees.advance hrest fun after _ hafter _ => Agrees.pure ?_
        exact ⟨(List.append_nil _).symm, hafter⟩
      rw [if_neg hquote]
      by_cases hescape : c = '\\'
      · subst hescape
        rw [if_pos rfl]
        refine Agrees.advance hrest fun after _ hafter _ => Agrees.current? ?_
        cases rest with
        | nil =>
          rw [hafter]
          exact Agrees.fail hafter
        | cons d rest =>
          rw [hafter]
          simp only [List.head?_cons]
          by_cases hd : d = '\'' ∨ d = '\\'
          · rw [if_pos hd, quotedOutcome_escape unclosed hd]
            refine Agrees.advance hafter fun last _ hlast _ => ?_
            rw [← hlast]
            apply hnext
            rw [hlast]
            exact Nat.lt_of_succ_lt hcalls
          · rw [if_neg hd, quotedOutcome, readQuoted, if_neg (hd ∘ Or.symm)]
            exact Agrees.fail hafter
      · rw [if_neg hescape, quotedOutcome_cons unclosed hquote hescape]
        refine Agrees.advance hrest fun after _ hafter _ => ?_
        rw [← hafter]
        apply hnext
        rwa [hafter]

/-- A quoted text is read from its opening quote as the grammar reads it behind the quote. -/
theorem agrees_readQuoted {unclosed : Cause} {c : Char} (hrest : cursor.rest = c :: rest)
    (hcalls : rest.length < calls) :
    Agrees text (Traced.readQuoted calls unclosed) cursor (quotedOutcome unclosed rest)
      Leaves := by
  refine Agrees.advance hrest fun after _ hafter _ => ?_
  subst hafter
  exact agrees_readQuotedFrom hcalls

/-! ### Closers and quoted names -/

/-- Looking for the closer leaves the cursor on it. -/
theorem agrees_stopAtCloser (close : Char) (selector : Selector) :
    Agrees text (Traced.stopAtCloser close selector) cursor
      (closeIndexer close selector cursor.rest) (StopsBefore close) := by
  apply Agrees.ensure
  · intro hrest
    rw [hrest]
    rfl
  · intro c rest hrest
    rw [hrest, closeIndexer]
    by_cases hc : c = close
    · subst hc
      rw [if_pos rfl, if_pos rfl]
      exact Agrees.pure ⟨rfl, hrest⟩
    · rw [if_neg hc, if_neg hc]
      exact Agrees.fail hrest

/-- Spaces may stand before the closer. -/
theorem agrees_stopBehindSpaces (close : Char) (selector : Selector) :
    Agrees text
      (do
        let _ ← Traced.ensure .openIndexer
        Traced.skipSpaces
        Traced.stopAtCloser close selector)
      cursor (closeIndexer close selector (skipSpaces cursor.rest)) (StopsBefore close) := by
  refine Agrees.ensure ?_ fun _ _ _ => ?_
  · intro hrest
    rw [hrest]
    rfl
  · refine Agrees.skipSpaces fun after _ hafter => ?_
    rw [← hafter]
    exact agrees_stopAtCloser close selector

/-- A quoted name is a quoted text that is not empty, up to the closer. -/
theorem readQuotedName_eq_bind (close c : Char) (body : List Char) :
    readQuotedName close (c :: body) =
      (quotedOutcome .openIndexer body).bind fun found =>
        if found.1.isEmpty then .error ⟨.emptyIndexer, c :: body⟩
        else closeIndexer close (.member (some (String.ofList found.1))) (skipSpaces found.2) := by
  rw [readQuotedName, List.drop_succ_cons, List.drop_zero, quotedOutcome]
  rcases readQuoted body with (_ | _) | _ <;> rfl

/-- A quoted name is read as the grammar reads it, up to the closer. -/
theorem agrees_readQuotedName (close : Char) {c : Char} (hrest : cursor.rest = c :: rest)
    (hcalls : rest.length < calls) :
    Agrees text (Traced.readQuotedName calls close) cursor (readQuotedName close (c :: rest))
      (StopsBefore close) := by
  rw [readQuotedName_eq_bind]
  apply Agrees.of_inText
  intro hin
  apply Agrees.position
  refine (agrees_readQuoted hrest hcalls).bind fun found name after _ _ hread => ?_
  obtain ⟨rfl, hafter⟩ := hread
  split
  · rw [← hrest, hin.rest_eq]
    exact Agrees.failAt hin.2
  · refine Agrees.skipSpaces fun last _ hlast => ?_
    rw [← hafter, ← hlast]
    exact agrees_stopAtCloser close _

/-! ### Words -/

/-- The first of some words at the front of a text, as what it stands for. -/
def wordOutcome {α : Type} (cause : Cause) : List (String × α) → List Char → Reading α
  | [], text => .error ⟨cause, text⟩
  | (word, a) :: words, text =>
    if word.toList.isPrefixOf text then .ok (a, text.drop word.toList.length)
    else wordOutcome cause words text

/-- Words are tried in their order. -/
theorem agrees_readWord {α : Type} (cause : Cause) (words : List (String × α)) :
    Agrees text (Traced.readWord cause words) cursor (wordOutcome cause words cursor.rest)
      Leaves := by
  induction words with
  | nil => exact Agrees.fail rfl
  | cons entry words ih =>
    obtain ⟨word, a⟩ := entry
    rw [wordOutcome]
    refine Agrees.afterWord (fun after _ hrest => ?_) fun hno => ?_
    · rw [hrest, if_pos (List.isPrefixOf_iff_prefix.mpr (List.prefix_append _ _)), List.drop_left]
      exact Agrees.pure ⟨rfl, rfl⟩
    · rw [if_neg (mt List.isPrefixOf_iff_prefix.mp hno)]
      exact ih

/-- A text that starts with none of the words is refused. -/
theorem wordOutcome_eq_error {α : Type} {cause : Cause} {words : List (String × α)}
    (h : ∀ entry ∈ words, ¬ entry.1.toList <+: text) :
    wordOutcome cause words text = .error ⟨cause, text⟩ := by
  induction words with
  | nil => rfl
  | cons entry words ih =>
    obtain ⟨hentry, hwords⟩ := List.forall_mem_cons.mp h
    rw [wordOutcome, if_neg (mt List.isPrefixOf_iff_prefix.mp hentry), ih hwords]

/-- Two characters decide which of the operators is the first that fits. -/
theorem wordOutcome_operatorWords (c d : Char) (rest : List Char) :
    wordOutcome .invalidOperator Traced.operatorWords (c :: d :: rest) =
      if '=' = c ∧ '=' = d then .ok (.equal, rest)
      else if '!' = c ∧ '=' = d then .ok (.unequal, rest)
      else if '<' = c ∧ '>' = d then .ok (.unequal, rest)
      else if '<' = c ∧ '=' = d then .ok (.atMost, rest)
      else if '<' = c then .ok (.less, d :: rest)
      else if '>' = c ∧ '=' = d then .ok (.atLeast, rest)
      else if '>' = c then .ok (.greater, d :: rest)
      else .error ⟨.invalidOperator, c :: d :: rest⟩ := by
  simp [wordOutcome, Traced.operatorWords]

/-- The operators are told apart by trying their texts in turn. -/
theorem readOperator_eq_wordOutcome (c d : Char) (rest : List Char) :
    readOperator (c :: d :: rest) =
      wordOutcome .invalidOperator Traced.operatorWords (c :: d :: rest) := by
  rw [wordOutcome_operatorWords]
  by_cases hless : '<' = c
  · subst hless
    by_cases hunequal : '>' = d
    · subst hunequal
      rfl
    by_cases hatMost : '=' = d
    · subst hatMost
      rfl
    rw [readOperator_less (Ne.symm hunequal) (Ne.symm hatMost)]
    simp [hunequal, hatMost]
  by_cases hgreater : '>' = c
  · subst hgreater
    by_cases hatLeast : '=' = d
    · subst hatLeast
      rfl
    rw [readOperator_greater (Ne.symm hatLeast)]
    simp [hatLeast]
  by_cases hequal : '=' = c ∧ '=' = d
  · obtain ⟨rfl, rfl⟩ := hequal
    rfl
  by_cases hunequal : '!' = c ∧ '=' = d
  · obtain ⟨rfl, rfl⟩ := hunequal
    rfl
  simp only [hless, hgreater, hequal, hunequal, false_and, if_false]
  unfold readOperator
  split <;> grind

/-- An operator is read as the grammar reads it. -/
theorem agrees_readOperator :
    Agrees text Traced.readOperator cursor (readOperator cursor.rest) Leaves := by
  apply Agrees.peek?
  obtain hrest | ⟨c, hrest⟩ | ⟨c, d, rest, hrest⟩ :
      cursor.rest = [] ∨ (∃ c, cursor.rest = [c]) ∨ ∃ c d rest, cursor.rest = c :: d :: rest := by
    rcases cursor.rest with _ | ⟨c, _ | ⟨d, rest⟩⟩ <;> simp
  · rw [hrest]
    exact Agrees.fail hrest
  · rw [hrest]
    exact Agrees.fail hrest
  · have hword : Agrees text (Traced.readWord .invalidOperator Traced.operatorWords) cursor
        (wordOutcome .invalidOperator Traced.operatorWords cursor.rest) Leaves :=
      agrees_readWord _ _
    rw [hrest] at hword ⊢
    rw [readOperator_eq_wordOutcome]
    exact hword

/-! ### Literals -/

/-- The number at the front of a text, which has to be followed by something. -/
def numberOutcome (text : List Char) : Reading Literal :=
  match numberLiteral? (text.takeWhile isNumberChar), text.dropWhile isNumberChar with
  | some literal, c :: rest => .ok (literal, c :: rest)
  | _, _ => .error ⟨.invalidLiteral, text⟩

/-- A literal that starts with a quote is a quoted text. -/
theorem readLiteral_quote (body : List Char) :
    readLiteral ('\'' :: body) =
      (quotedOutcome .invalidLiteral body).bind fun found =>
        .ok (.string (String.ofList found.1), found.2) := by
  rw [readLiteral, quotedOutcome]
  rcases readQuoted body with (_ | _) | _ <;> rfl

/-- A literal that starts with an index character is a number. -/
theorem readLiteral_of_isIndexChar {c : Char} (hc : isIndexChar c = true) (rest : List Char) :
    readLiteral (c :: rest) = numberOutcome (c :: rest) := by
  have hletter : ∀ letter, isIndexChar letter = false → c ≠ letter := by
    rintro letter hl rfl
    exact absurd hl (by simp [hc])
  have hshape : (c.isDigit || decide (c = '-')) = true := hc
  unfold readLiteral
  split
  · next h => exact absurd (List.cons.inj h).1 (hletter '\'' (by decide))
  · next h => exact absurd (List.cons.inj h).1 (hletter 't' (by decide))
  · next h => exact absurd (List.cons.inj h).1 (hletter 'f' (by decide))
  · next h => exact absurd (List.cons.inj h).1 (hletter 'n' (by decide))
  · next h =>
    obtain ⟨rfl, -⟩ := List.cons.inj h
    rw [if_pos hshape]
    rfl
  · next h => exact absurd h (List.cons_ne_nil _ _)

/-- The literals that are words are told apart by trying them in turn. -/
theorem readLiteral_eq_wordOutcome {c : Char} (hquote : c ≠ '\'') (hc : isIndexChar c = false)
    (rest : List Char) :
    readLiteral (c :: rest) = wordOutcome .invalidLiteral Traced.literalWords (c :: rest) := by
  have hshape : ¬(c.isDigit || decide (c = '-')) = true := Bool.eq_false_iff.mp hc
  unfold readLiteral
  split
  · next h => exact absurd (List.cons.inj h).1 hquote
  · next h =>
    rw [h]
    rfl
  · next h =>
    rw [h]
    rfl
  · next h =>
    rw [h]
    rfl
  · next htrue hfalse hnull h =>
    obtain ⟨rfl, rfl⟩ := List.cons.inj h
    rw [if_neg hshape]
    refine (wordOutcome_eq_error ?_).symm
    simp only [Traced.literalWords, List.forall_mem_cons, List.not_mem_nil, false_implies,
      implies_true, and_true]
    refine ⟨?_, ?_, ?_⟩
    · rintro ⟨tail, h⟩
      exact htrue tail (List.cons.inj h).1.symm (List.cons.inj h).2.symm
    · rintro ⟨tail, h⟩
      exact hfalse tail (List.cons.inj h).1.symm (List.cons.inj h).2.symm
    · rintro ⟨tail, h⟩
      exact hnull tail (List.cons.inj h).1.symm (List.cons.inj h).2.symm
  · next h => exact absurd h (List.cons_ne_nil _ _)

/-- No word is read that does not start with the current character. -/
theorem readLiteral_of_ne {c : Char} (hquote : c ≠ '\'') (hc : isIndexChar c = false)
    (hword : ¬(c = 't' ∨ c = 'f' ∨ c = 'n')) (rest : List Char) :
    readLiteral (c :: rest) = .error ⟨.invalidLiteral, c :: rest⟩ := by
  rw [readLiteral_eq_wordOutcome hquote hc]
  apply wordOutcome_eq_error
  simp only [Traced.literalWords, List.forall_mem_cons, List.not_mem_nil, false_implies,
    implies_true, and_true]
  refine ⟨?_, ?_, ?_⟩
  · rintro ⟨tail, h⟩
    exact hword (Or.inl (List.cons.inj h).1.symm)
  · rintro ⟨tail, h⟩
    exact hword (Or.inr (Or.inl (List.cons.inj h).1.symm))
  · rintro ⟨tail, h⟩
    exact hword (Or.inr (Or.inr (List.cons.inj h).1.symm))

/-- A number is read on as the grammar reads it from its first position. -/
theorem agrees_readNumberFrom {first : Nat} {word : List Char}
    (hpassed : cursor.HasPassed text isNumberChar first word)
    (hcalls : cursor.rest.length < calls) :
    Agrees text (Traced.readNumberFrom calls first) cursor (numberOutcome (text.drop first))
      Leaves := by
  induction calls generalizing cursor word with
  | zero => exact absurd hcalls (Nat.not_lt_zero _)
  | succ calls ih =>
    apply Agrees.of_inText
    intro hin
    have hle : first ≤ text.length :=
      (Nat.le_add_right first word.length).trans (hpassed.position_eq.trans_le hin.2)
    apply Agrees.current?
    cases hrest : cursor.rest with
    | nil =>
      have hdrop := hpassed.dropWhile_eq (by simp [hrest])
      rw [hrest] at hdrop
      have houtcome : numberOutcome (text.drop first) =
          .error ⟨.invalidLiteral, text.drop first⟩ := by
        rw [numberOutcome, hdrop]
        cases numberLiteral? _ <;> rfl
      rw [houtcome]
      exact Agrees.failAt hle
    | cons c rest =>
      simp only [List.head?_cons]
      by_cases hc : isNumberChar c = true
      · rw [if_pos hc]
        refine Agrees.advance hrest fun after _ hafter hposition => ?_
        refine ih (hpassed.concat hrest hc hafter hposition) ?_
        rw [hrest] at hcalls
        rw [hafter]
        exact Nat.lt_of_succ_lt_succ hcalls
      · rw [if_neg hc]
        have hhead : ∀ d ∈ cursor.rest.head?, isNumberChar d = false :=
          Cursor.forall_head?_rest hrest (eq_false_of_ne_true hc)
        rw [numberOutcome, hpassed.takeWhile_eq hhead, hpassed.dropWhile_eq hhead, hrest]
        apply Agrees.position
        refine Agrees.textBetween hpassed.drop_eq hpassed.position_eq hin.2 fun after _ hplace => ?_
        rw [String.toList_ofList]
        cases numberLiteral? word with
        | some literal => exact Agrees.pure ⟨rfl, (congrArg Place.rest hplace).trans hrest⟩
        | none => exact Agrees.failAt hle

/-- A literal is read as the grammar reads it. -/
theorem agrees_readLiteral (hcalls : cursor.rest.length < calls) :
    Agrees text (Traced.readLiteral calls) cursor (readLiteral cursor.rest) Leaves := by
  apply Agrees.of_inText
  intro hin
  apply Agrees.position
  apply Agrees.current?
  cases hrest : cursor.rest with
  | nil => exact Agrees.fail hrest
  | cons c rest =>
    rw [hrest, List.length_cons] at hcalls
    simp only [List.head?_cons]
    by_cases hquote : c = '\''
    · subst hquote
      rw [if_pos rfl, readLiteral_quote]
      refine (agrees_readQuoted hrest (Nat.lt_of_succ_lt hcalls)).bind ?_
      rintro found value after - - ⟨rfl, hafter⟩
      exact Agrees.pure ⟨rfl, hafter⟩
    rw [if_neg hquote]
    by_cases hindex : isIndexChar c = true
    · rw [if_pos hindex, readLiteral_of_isIndexChar hindex]
      refine Agrees.advance hrest fun after hleads hafter hposition => ?_
      have hone := (Cursor.HasPassed.nil hin).concat hrest (isNumberChar_of_isIndexChar hindex)
        hafter hposition
      rw [← hrest, hin.rest_eq]
      apply agrees_readNumberFrom hone
      rw [hafter]
      exact Nat.lt_of_succ_lt hcalls
    rw [if_neg hindex]
    by_cases hword : c = 't' ∨ c = 'f' ∨ c = 'n'
    · rw [if_pos hword, readLiteral_eq_wordOutcome hquote (eq_false_of_ne_true hindex), ← hrest]
      exact agrees_readWord _ _
    · rw [if_neg hword, readLiteral_of_ne hquote (eq_false_of_ne_true hindex) hword]
      exact Agrees.fail hrest

end JsonSelect
