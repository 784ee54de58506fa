import Mathlib.Tactic.Common
import JsonSelect.Proofs.Selector.WellFormed

/-!
# One step of reading

One equation for each way in which a path goes on: with a dot, a double dot, an indexer or a bare
name.  Whatever is read afterwards is put behind the segment.  The indexes of a list
(`readIndexes_of_afterIndexWord`), the conditions of a filter (`readConditions_eq_bind`) and the
numbers among the literals (`readLiteral_number`) have equations of the same kind.  Proofs about
paths and filters follow these equations and leave the readers closed.
-/

namespace JsonSelect

variable {nested : ConditionReader} {inFilter descending afterIndexer : Bool}
  {rest : List Char}

/-! ### Runs of characters -/

section

variable {p : Char → Bool} {run rest : List Char} (hrun : ∀ c ∈ run, p c = true)
  (hrest : ∀ c ∈ rest.head?, p c = false)

include hrun hrest

/-- A run of characters ends at the first one that does not belong to it. -/
theorem takeWhile_append_of_head? : (run ++ rest).takeWhile p = run := by
  rw [List.takeWhile_append_of_pos hrun]
  cases rest with
  | nil => rw [List.takeWhile_nil, List.append_nil]
  | cons c rest => rw [List.takeWhile_cons_of_neg (by simp [hrest c rfl]), List.append_nil]

/-- A run of characters of a kind is dropped up to another one. -/
theorem dropWhile_append_of_head? : (run ++ rest).dropWhile p = rest := by
  rw [List.dropWhile_append_of_pos hrun]
  cases rest with
  | nil => rfl
  | cons c rest => rw [List.dropWhile_cons_of_neg (by simp [hrest c rfl])]

end

/-! ### The first character -/

/-- What is true of the first characters of two texts is true when one of them is put in the place
of the other, behind something that stays. -/
theorem forall_head?_append {P : Char → Prop} {front text more : List Char}
    (h : ∀ c ∈ (front ++ text).head?, P c) (hmore : ∀ c ∈ more.head?, P c) :
    ∀ c ∈ (front ++ more).head?, P c := by
  cases front with
  | nil => exact hmore
  | cons c front => exact h

/-! ### Segments of a path -/

/-- At the end of the text there is no segment. -/
theorem readSegments_nil :
    readSegments nested inFilter descending afterIndexer [] = .ok ([], []) := by
  rw [readSegments]

/-- A double dot starts a descent. -/
theorem readSegments_dots :
    readSegments nested inFilter descending afterIndexer ('.' :: '.' :: rest) =
      readSegments nested inFilter true false rest := by
  rw [readSegments]

/-- A single dot leads on to the next segment. -/
theorem readSegments_dot (h : rest.head? ≠ some '.') :
    readSegments nested inFilter descending afterIndexer ('.' :: rest) =
      readSegments nested inFilter descending false rest := by
  rw [readSegments]
  rintro more rfl
  exact h rfl

/-- Any other character starts an indexer or a bare name, or ends the path. -/
theorem readSegments_cons {c : Char} (h : c ≠ '.') :
    readSegments nested inFilter descending afterIndexer (c :: rest) =
      if c = '[' ∨ c = '(' then
        (readIndexer nested (closerOf c) rest).bind fun (selector, rest) =>
          (readSegments nested inFilter descending true rest).map fun (selectors, rest) =>
            (selector :: selectors, rest)
      else if isNameChar inFilter c then
        if afterIndexer then .error ⟨.unexpectedAfterIndexer c, c :: rest⟩
        else
          (readSegments nested inFilter false false (rest.dropWhile (isNameChar inFilter))).map
            fun (selectors, rest') =>
              (bareName descending (c :: rest.takeWhile (isNameChar inFilter)) :: selectors, rest')
      else .ok ([], c :: rest) := by
  rw [readSegments]
  · split
    · split
      · next hr => rw [hr]; rfl
      · next hr => rw [hr]; rfl
    · rfl
  · rintro more rfl
    exact absurd rfl h
  · rintro rfl
    exact absurd rfl h

/-- An indexer is read after its opener. -/
theorem readSegments_opener {opening : Char} (h : opening = '[' ∨ opening = '(')
    (text : List Char) :
    readSegments nested inFilter descending afterIndexer (opening :: text) =
      (readIndexer nested (closerOf opening) text).bind fun (selector, rest) =>
        (readSegments nested inFilter descending true rest).map fun (selectors, rest) =>
          (selector :: selectors, rest) := by
  have hdot : opening ≠ '.' := by
    rcases h with rfl | rfl <;> decide
  rw [readSegments_cons hdot, if_pos h]

/-- No character of a bare name separates segments. -/
theorem ne_of_isNameChar {c : Char} (h : isNameChar inFilter c = true) :
    c ≠ '.' ∧ ¬(c = '[' ∨ c = '(') := by
  have hdelim : c ∉ ['.', '[', ']', '(', ')', ' '] := (isNameChar_eq_true_iff.mp h).1
  constructor
  · rintro rfl
    simp at hdelim
  · rintro (rfl | rfl) <;> simp at hdelim

/-- Directly after an indexer there can be no bare name. -/
theorem readSegments_name_afterIndexer {c : Char} (h : isNameChar inFilter c = true) :
    readSegments nested inFilter descending true (c :: rest) =
      .error ⟨.unexpectedAfterIndexer c, c :: rest⟩ := by
  obtain ⟨hdot, hopen⟩ := ne_of_isNameChar h
  rw [readSegments_cons hdot, if_neg hopen, if_pos h, if_pos rfl]

/-- A bare name runs to the first character that cannot be part of one. -/
theorem readSegments_name {name : List Char} (hne : name ≠ [])
    (hname : ∀ c ∈ name, isNameChar inFilter c = true)
    (hrest : ∀ c ∈ rest.head?, isNameChar inFilter c = false) :
    readSegments nested inFilter descending false (name ++ rest) =
      (readSegments nested inFilter false false rest).map fun (selectors, rest) =>
        (bareName descending name :: selectors, rest) := by
  obtain ⟨c, name, rfl⟩ := List.exists_cons_of_ne_nil hne
  obtain ⟨hc, hname⟩ := List.forall_mem_cons.mp hname
  obtain ⟨hdot, hopen⟩ := ne_of_isNameChar hc
  rw [List.cons_append, readSegments_cons hdot, if_neg hopen, if_pos hc,
    if_neg Bool.false_ne_true, takeWhile_append_of_head? hname hrest,
    dropWhile_append_of_head? hname hrest]

/-- Where a path ends: at the end of the text, or at a character that goes on with no segment. -/
def EndsPath (inFilter : Bool) (text : List Char) : Prop :=
  ∀ c ∈ text.head?, c ≠ '.' ∧ c ≠ '[' ∧ c ≠ '(' ∧ isNameChar inFilter c = false

/-- A path ends where the text does. -/
theorem endsPath_nil {inFilter : Bool} : EndsPath inFilter [] := by
  rintro _ ⟨⟩

/-- Where a path ends is decided by the next character. -/
theorem EndsPath.of_head? {text : List Char} (h : EndsPath inFilter text)
    (hrest : rest.head? = text.head?) : EndsPath inFilter rest :=
  fun c hc => h c (hrest ▸ hc)

/-- No segment is read where a path ends. -/
theorem readSegments_of_endsPath (h : EndsPath inFilter rest) :
    readSegments nested inFilter descending afterIndexer rest = .ok ([], rest) := by
  cases rest with
  | nil => exact readSegments_nil
  | cons c rest =>
    obtain ⟨hdot, hbracket, hparen, hname⟩ := h c rfl
    have hopen : ¬(c = '[' ∨ c = '(') := not_or.mpr ⟨hbracket, hparen⟩
    rw [readSegments_cons hdot, if_neg hopen, hname, if_neg Bool.false_ne_true]

/-! ### Indexers -/

/-- The first character of an indexer tells a quoted name, a filter and an array indexer apart. -/
theorem readIndexer_of_skipSpaces {close c : Char} {text : List Char}
    (h : skipSpaces text = c :: rest) :
    readIndexer nested close text =
      if c = '\'' then readQuotedName close (c :: rest)
      else if c = '?' then readFilter nested close rest
      else readArrayIndexer close (c :: rest) := by
  unfold readIndexer
  split
  · next h' => exact absurd (h.symm.trans h') (List.cons_ne_nil _ _)
  · next h' =>
    obtain ⟨rfl, rfl⟩ := List.cons.inj (h.symm.trans h')
    rfl
  · next h' =>
    obtain ⟨rfl, rfl⟩ := List.cons.inj (h.symm.trans h')
    rfl
  · next hquote hfilter =>
    have hc : c ≠ '\'' := fun hc => hquote rest (hc ▸ h)
    have hc' : c ≠ '?' := fun hc => hfilter rest (hc ▸ h)
    rw [if_neg hc, if_neg hc', h]

/-- A closed indexer is the one that was expected. -/
theorem eq_of_closeIndexer {close : Char} {expected selector : Selector} {text : List Char}
    (h : closeIndexer close expected text = .ok (selector, rest)) :
    selector = expected ∧ text = close :: rest := by
  unfold closeIndexer at h
  split at h
  · split at h
    · next hc =>
      obtain ⟨rfl, rfl⟩ := Prod.mk.inj (Except.ok.inj h)
      exact ⟨rfl, hc ▸ rfl⟩
    · exact absurd h (refuseInIndexer_ne_ok _ _)
  · exact absurd h (refuseInIndexer_ne_ok _ _)

/-- The last index of a list stands before the closer, every other one before a comma. -/
theorem readIndexes_of_afterIndexWord {close c : Char} {text rest : List Char}
    (h : afterIndexWord text = c :: rest) :
    readIndexes close text =
      if c = close then (readIndex text).map fun index => ([index], rest)
      else if c = ',' then
        (readIndex text).bind fun index =>
          (readIndexes close (skipSpaces rest)).map fun (indexes, rest) =>
            (index :: indexes, rest)
      else refuseInIndexer (c :: rest) := by
  rw [readIndexes]
  split
  · next h' => exact absurd (h.symm.trans h') (by simp)
  · next h' =>
    obtain ⟨rfl, rfl⟩ := List.cons.inj (h.symm.trans h')
    rfl

/-! ### Operators -/

/-- A less-than sign is an operator by itself unless the next character belongs to it. -/
theorem readOperator_less {c : Char} (hunequal : c ≠ '>') (hatMost : c ≠ '=') :
    readOperator ('<' :: c :: rest) = .ok (.less, c :: rest) := by
  simp [readOperator, hunequal, hatMost]

/-- So is a greater-than sign. -/
theorem readOperator_greater {c : Char} (hatLeast : c ≠ '=') :
    readOperator ('>' :: c :: rest) = .ok (.greater, c :: rest) := by
  simp [readOperator, hatLeast]

/-! ### Numbers -/

/-- The characters of an index are characters of a number. -/
theorem isNumberChar_of_isIndexChar {c : Char} (h : isIndexChar c = true) :
    isNumberChar c = true := by
  rw [isNumberChar, Bool.and_eq_true, bne_iff_ne, bne_iff_ne]
  constructor
  · rintro rfl
    exact absurd h (by decide)
  · rintro rfl
    exact absurd h (by decide)

/-- The characters after which the literal of a condition is over. -/
def EndsLiteral (text : List Char) : Prop :=
  ∃ c rest, text = c :: rest ∧ isNumberChar c = false

/-- Where a literal ends is decided by the next character. -/
theorem EndsLiteral.of_head? {text : List Char} (h : EndsLiteral text)
    (hrest : rest.head? = text.head?) : EndsLiteral rest := by
  obtain ⟨c, text, rfl, hc⟩ := h
  obtain ⟨rest, rfl⟩ := List.head?_eq_some_iff.mp hrest
  exact ⟨c, rest, rfl, hc⟩

/-- A number runs to the first character that is not part of it.  It has to be a literal as a
whole. -/
theorem readLiteral_number {word : List Char} {c : Char}
    (hstart : ∃ d ∈ word.head?, isIndexChar d = true)
    (hword : ∀ d ∈ word, isNumberChar d = true) (hc : isNumberChar c = false) :
    readLiteral (word ++ c :: rest) =
      (numberLiteral? word).elim (.error ⟨.invalidLiteral, word ++ c :: rest⟩)
        fun literal => .ok (literal, c :: rest) := by
  have hrest : ∀ d ∈ (c :: rest).head?, isNumberChar d = false := by
    rintro d ⟨⟩
    exact hc
  have htake := takeWhile_append_of_head? hword hrest
  have hdrop := dropWhile_append_of_head? hword hrest
  obtain ⟨d, hd, hindex⟩ := hstart
  obtain ⟨more, rfl⟩ := List.head?_eq_some_iff.mp hd
  have hletter : ∀ letter, isIndexChar letter = false → d ≠ letter := by
    rintro letter hl rfl
    exact absurd hl (by simp [hindex])
  have hshape : (d.isDigit || decide (d = '-')) = true := hindex
  rw [List.cons_append] at htake hdrop ⊢
  unfold readLiteral
  split
  · next h => exact absurd (List.cons.inj h).1 (hletter '\'' (by decide))
  · next h => exact absurd (List.cons.inj h).1 (hletter 't' (by decide))
  · next h => exact absurd (List.cons.inj h).1 (hletter 'f' (by decide))
  · next h => exact absurd (List.cons.inj h).1 (hletter 'n' (by decide))
  · next h =>
    obtain ⟨rfl, -⟩ := List.cons.inj h
    rw [if_pos hshape, htake, hdrop]
    cases numberLiteral? (d :: more) <;> rfl
  · next h => exact absurd h (List.cons_ne_nil _ _)

/-! ### Conditions of a filter -/

/-- What a condition does after its operator: it reads a literal, and neither the operator nor the
literal may end the expression. -/
def afterOperator (path : List Selector) (operator : Operator) (text : List Char) :
    Reading Condition :=
  if (skipSpaces text).isEmpty then .error ⟨.openFilter, []⟩
  else
    (readLiteral (skipSpaces text)).bind fun (literal, rest) =>
      if (skipSpaces rest).isEmpty then .error ⟨.openFilter, []⟩
      else .ok (.comparison path operator literal, skipSpaces rest)

/-- A condition on presence ends before the closing parenthesis, and any other character belongs
to an operator. -/
theorem readComparison_of_skipSpaces {path : List Selector} {c : Char} {text : List Char}
    (h : skipSpaces text = c :: rest) :
    readComparison path text =
      if c = ')' then .ok (.presence path, c :: rest)
      else
        (readOperator (c :: rest)).bind fun (operator, rest) =>
          afterOperator path operator rest := by
  unfold readComparison
  split
  · next h' => exact absurd (h.symm.trans h') (List.cons_ne_nil _ _)
  · next h' =>
    obtain ⟨rfl, rfl⟩ := List.cons.inj (h.symm.trans h')
    rfl
  · next hparen =>
    have hc : c ≠ ')' := fun hc => hparen rest (hc ▸ h)
    rw [if_neg hc, h]
    rfl

/-- A condition starts with its `@`, behind which its path is read. -/
theorem readCondition_of_skipSpaces {c : Char} {text : List Char}
    (h : skipSpaces text = c :: rest) :
    readCondition nested text =
      if c = '@' then
        (readSegments nested true false false rest).bind fun (path, rest) =>
          readComparison path rest
      else .error ⟨.unexpectedInFilter c, c :: rest⟩ := by
  unfold readCondition
  split
  · next h' => exact absurd (h.symm.trans h') (List.cons_ne_nil _ _)
  · next h' =>
    obtain ⟨rfl, rfl⟩ := List.cons.inj (h.symm.trans h')
    rfl
  · next hat h' =>
    obtain ⟨rfl, rfl⟩ := List.cons.inj (h.symm.trans h')
    rw [if_neg hat]

/-- All that a condition can be read as behind its path. -/
theorem readComparison_cases {path : List Selector} {text : List Char} {condition : Condition}
    (h : readComparison path text = .ok (condition, rest)) :
    (condition = .presence path ∧ rest.head? = some ')' ∧ skipSpaces text = rest) ∨
      ∃ operator literal after behind,
        readOperator (skipSpaces text) = .ok (operator, after) ∧
        readLiteral (skipSpaces after) = .ok (literal, behind) ∧
        condition = .comparison path operator literal ∧ rest = skipSpaces behind := by
  cases hr : skipSpaces text with
  | nil =>
    rw [readComparison, hr] at h
    contradiction
  | cons c more =>
    rw [readComparison_of_skipSpaces hr] at h
    split at h
    · next hc =>
      obtain ⟨rfl, rfl⟩ := Prod.mk.inj (Except.ok.inj h)
      exact Or.inl ⟨rfl, congrArg some hc, rfl⟩
    · obtain ⟨⟨operator, after⟩, ho, h⟩ := bind_eq_ok_iff.mp h
      dsimp only [afterOperator] at h
      split at h
      · contradiction
      · obtain ⟨⟨literal, behind⟩, hl, h⟩ := bind_eq_ok_iff.mp h
        dsimp only at h
        split at h
        · contradiction
        · obtain ⟨rfl, rfl⟩ := Prod.mk.inj (Except.ok.inj h)
          exact Or.inr ⟨operator, literal, after, behind, ho, hl, rfl, rfl⟩

/-- What a filter does after a condition: it ends at the closing parenthesis, and any other
character connects the condition with the next one. -/
def afterCondition (nested : ConditionReader) (condition : Condition) :
    List Char → Reading (List Condition)
  | [] => .error ⟨.openFilter, []⟩
  | c :: rest =>
    if c = ')' then .ok ([condition], rest)
    else
      (readConditions nested (afterConnective c rest)).map fun (conditions, rest) =>
        (condition :: conditions, rest)

/-- Conditions are a first one and what comes behind it. -/
theorem readConditions_eq_bind (text : List Char) :
    readConditions nested text =
      (nested.read text).bind fun (condition, rest) => afterCondition nested condition rest := by
  rw [readConditions]
  split
  all_goals
    next h =>
      rw [h]
      rfl

/-! ### Whole expressions -/

/-- A path that fills a text is its segments, with nothing but spaces left over. -/
theorem readWholePath_eq_bind (limit : Nat) (text : List Char) :
    readWholePath limit text =
      (readSegments (conditionReader limit limit) false false false text).bind
        fun (selectors, rest) =>
          if (skipSpaces rest).isEmpty then .ok selectors
          else .error ⟨.unexpectedInPath (rest.headD ' '), rest⟩ := by
  unfold readWholePath
  split
  · next hr =>
    rw [hr]
    rfl
  · next rest hr =>
    rw [hr]
    cases rest <;> rfl

/-- An expression without spaces and a `$` in front is read as a path. -/
theorem readExpression_of_head? {limit : Nat} {text : List Char} (hspace : text.head? ≠ some ' ')
    (hroot : text.head? ≠ some '$') : readExpression limit text = readWholePath limit text := by
  have hskip : skipSpaces text = text := by
    cases text with
    | nil => rfl
    | cons c text =>
      apply skipSpaces_cons_of_ne
      rintro rfl
      exact hspace rfl
  rw [readExpression, hskip]
  split
  · exact absurd rfl hroot
  · rfl

/-- An expression with a root is what follows the root. -/
theorem readExpression_root_cons (limit : Nat) (text : List Char) :
    readExpression limit ('$' :: text) = readAfterRoot limit text := by
  rw [readExpression, skipSpaces_cons_of_ne (by decide)]
  rfl

/-- After a `$` a path is read that starts with a dot or a bracket, if there is one. -/
theorem readExpression_root {limit : Nat} {text : List Char}
    (h : ∀ c ∈ text.head?, c = '.' ∨ c = '[') :
    readExpression limit ('$' :: text) = readWholePath limit text := by
  rw [readExpression_root_cons]
  cases text with
  | nil => rw [readAfterRoot, readWholePath, readSegments_nil]
  | cons c text => rw [readAfterRoot, if_pos (h c rfl)]

end JsonSelect
