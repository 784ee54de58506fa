import Mathlib.Tactic.Common
import JsonSelect.Proofs.Grammar.Compiled

/-!
# How far a reader looks

What a reader reads does not depend on the characters far behind it.  An indexer ends with a closer
of its own and is read whatever stands behind the closer.  A path, an operator, a literal and a
condition end where a character does not belong to them any more; they are read whatever stands
behind that character.

Both are stated by what may take the place of the characters that are left over (`ReadsBefore`).
Since a reader goes from the front to the back, its statement is put together from the back: the
part that is read first goes in front of the rest (`ReadsBefore.prepend`), and what it looks at
behind itself is the first character of the rest, which stays.  For array indexers there is nothing
to put together, since their grammar already says so.

For paths and comparisons a little more is true.  A path never ends with a space, and behind it may
stand whatever a path ends at, be it the end of the text or another character
(`exists_readSegments`).  Behind a comparison may stand whatever ends its literal
(`exists_readComparison`).
-/

namespace JsonSelect

variable {α β : Type}

/-- What `reader` reads from `text` stands before `rest`, and it is read as well before anything
else of which `follows` holds.  The first character stays in any case: a reader in front may look
at it. -/
def ReadsBefore (follows : List Char → Prop) (reader : List Char → Reading α)
    (text : List Char) (value : α) (rest : List Char) : Prop :=
  ∃ consumed, text = consumed ++ rest ∧ ∀ more, follows more →
    (consumed ++ more).head? = text.head? ∧ reader (consumed ++ more) = .ok (value, more)

/-- The reader looks at nothing behind what it reads. -/
def SelfDelimiting (reader : List Char → Reading α) : Prop :=
  ∀ {text value rest}, reader text = .ok (value, rest) →
    ReadsBefore (fun _ => True) reader text value rest

/-- The reader looks at no more than one character behind what it reads. -/
def LooksOneAhead (reader : List Char → Reading α) : Prop :=
  ∀ {text value rest}, reader text = .ok (value, rest) →
    ReadsBefore (fun more => more.head? = rest.head?) reader text value rest

section

variable {follows : List Char → Prop} {reader : List Char → Reading α} {value : α}
  {text rest : List Char} (front : List Char)

/-- A reader that ends with the delimiter `c`. -/
theorem readsBefore_delimiter {c : Char}
    (h : ∀ more, reader (front ++ c :: more) = .ok (value, more)) :
    ReadsBefore follows reader (front ++ c :: rest) value rest := by
  refine ⟨front ++ [c], by simp, fun more _ => ⟨?_, ?_⟩⟩
  · simp [List.head?_append]
  · simpa using h more

/-- A reader that ends before a character that does not belong to it. -/
theorem readsBefore_lookahead
    (h : ∀ more, more.head? = rest.head? → reader (front ++ more) = .ok (value, more)) :
    ReadsBefore (fun more => more.head? = rest.head?) reader (front ++ rest) value rest := by
  refine ⟨front, rfl, fun more hmore => ⟨?_, h more hmore⟩⟩
  rw [List.head?_append, List.head?_append, hmore]

/-- What is read first goes in front of the rest, provided that it stays readable as long as the
first character behind it stays. -/
theorem ReadsBefore.prepend {reader' : List Char → Reading β} {value' : β}
    (h : ReadsBefore follows reader text value rest)
    (hread : ∀ {more remaining}, more.head? = text.head? →
      reader more = .ok (value, remaining) → reader' (front ++ more) = .ok (value', remaining)) :
    ReadsBefore follows reader' (front ++ text) value' rest := by
  obtain ⟨consumed, rfl, hmore⟩ := h
  refine ⟨front ++ consumed, (List.append_assoc ..).symm, fun more hfollows => ?_⟩
  obtain ⟨hhead, hok⟩ := hmore more hfollows
  rw [List.append_assoc]
  constructor
  · rw [List.head?_append, hhead, ← List.head?_append]
  · exact hread hhead hok

end

/-! ### Runs of characters -/

section

variable {p : Char → Bool} {text more : List Char}

/-- The first character behind a run does not belong to it. -/
theorem eq_false_of_mem_head?_dropWhile {c : Char} (hc : c ∈ (text.dropWhile p).head?) :
    p c = false := by
  have hhead := List.head?_dropWhile_not p text
  rw [Option.mem_def.mp hc] at hhead
  simpa using hhead

/-- A run consists of the same characters as long as the first one behind it stays. -/
theorem takeWhile_takeWhile_append (h : more.head? = (text.dropWhile p).head?) :
    (text.takeWhile p ++ more).takeWhile p = text.takeWhile p :=
  takeWhile_append_of_head? (List.all_eq_true.mp List.all_takeWhile) fun _ hc =>
    eq_false_of_mem_head?_dropWhile (h ▸ hc)

/-- Behind the longest front of a kind, whatever follows is left if it starts alike. -/
theorem dropWhile_takeWhile_append (h : more.head? = (text.dropWhile p).head?) :
    (text.takeWhile p ++ more).dropWhile p = more :=
  dropWhile_append_of_head? (List.all_eq_true.mp List.all_takeWhile) fun _ hc =>
    eq_false_of_mem_head?_dropWhile (h ▸ hc)

end

/-- The spaces at the front of a text. -/
theorem exists_skipSpaces (text : List Char) :
    ∃ spaces, text = spaces ++ skipSpaces text ∧
      ∀ more, more.head? = (skipSpaces text).head? →
        (spaces ++ more).head? = text.head? ∧ skipSpaces (spaces ++ more) = more := by
  have htext : text = text.takeWhile (· == ' ') ++ skipSpaces text :=
    List.takeWhile_append_dropWhile.symm
  refine ⟨text.takeWhile (· == ' '), htext, fun more hmore => ⟨?_, ?_⟩⟩
  · rw [List.head?_append, hmore, ← List.head?_append, ← htext]
  · exact dropWhile_takeWhile_append hmore

/-- Skipping spaces first changes nothing. -/
theorem ReadsBefore.afterSpaces {follows : List Char → Prop} {reader : List Char → Reading α}
    {value : α} {text rest : List Char}
    (h : ReadsBefore follows reader (skipSpaces text) value rest) :
    ReadsBefore follows (fun text => reader (skipSpaces text)) text value rest := by
  obtain ⟨spaces, htext, hskip⟩ := exists_skipSpaces text
  rw [htext]
  apply h.prepend
  intro more remaining hmore hok
  rw [(hskip more hmore).2, hok]

/-- The index characters at the front of a text, with the spaces behind them. -/
theorem exists_afterIndexWord (text : List Char) :
    ∃ front, text = front ++ afterIndexWord text ∧
      ∀ more, more.head? = (afterIndexWord text).head? →
        indexWord (front ++ more) = indexWord text ∧ afterIndexWord (front ++ more) = more := by
  obtain ⟨spaces, hspaces, hskip⟩ := exists_skipSpaces (text.dropWhile isIndexChar)
  refine ⟨text.takeWhile isIndexChar ++ spaces, ?_, fun more hmore => ?_⟩
  · rw [List.append_assoc, afterIndexWord, ← hspaces, List.takeWhile_append_dropWhile]
  · obtain ⟨hhead, hmore⟩ := hskip more hmore
    rw [List.append_assoc]
    constructor
    · exact takeWhile_takeWhile_append hhead
    · rw [afterIndexWord, dropWhile_takeWhile_append hhead, hmore]

/-- Texts that do not end with a space. -/
def EndsTight (text : List Char) : Prop :=
  ∀ c ∈ text.getLast?, c ≠ ' '

theorem endsTight_nil : EndsTight [] := by
  rintro _ ⟨⟩

/-- A text does not end with a space if its last character is another one. -/
theorem endsTight_concat (text : List Char) {c : Char} (hc : c ≠ ' ') :
    EndsTight (text ++ [c]) := by
  intro d hd
  rw [List.getLast?_concat] at hd
  obtain rfl := Option.some.inj hd
  exact hc

/-- A text without spaces does not end with one. -/
theorem endsTight_of_forall {text : List Char} (h : ∀ c ∈ text, c ≠ ' ') : EndsTight text :=
  fun c hc => h c (List.mem_of_getLast? hc)

/-- A run of name characters holds no space. -/
theorem endsTight_of_forall_isNameChar {inFilter : Bool} {run : List Char}
    (h : ∀ c ∈ run, isNameChar inFilter c = true) : EndsTight run := by
  apply endsTight_of_forall
  rintro _ hc rfl
  have hspace : isNameChar inFilter ' ' = false := by cases inFilter <;> decide
  exact absurd (h ' ' hc) (by simp [hspace])

/-- Two texts that do not end with a space make one that does not. -/
theorem EndsTight.append {text more : List Char} (h : EndsTight text) (hmore : EndsTight more) :
    EndsTight (text ++ more) := by
  intro c hc
  rw [List.getLast?_append, Option.mem_def, Option.or_eq_some_iff] at hc
  rcases hc with hc | ⟨-, hc⟩
  · exact hmore c hc
  · exact h c hc

/-! ### Indexes and closers -/

/-- An index is read from its characters alone. -/
theorem readIndex_of_indexWord {text text' : List Char} {index : Int64}
    (h : readIndex text = .ok index) (hword : indexWord text' = indexWord text) :
    readIndex text' = .ok index := by
  rw [readIndex_eq_ok_iff] at h ⊢
  rwa [hword]

/-- An index that may be missing depends on the index characters at the front only. -/
theorem readOptionalIndex_of_indexWord {text text' : List Char} {index : Option Int64}
    (h : readOptionalIndex text = .ok index) (hword : indexWord text' = indexWord text) :
    readOptionalIndex text' = .ok index := by
  cases index with
  | none =>
    rw [readOptionalIndex_eq_ok_none_iff] at h ⊢
    rwa [hword]
  | some index =>
    rw [readOptionalIndex_eq_ok_some_iff] at h ⊢
    rwa [hword]

/-- The closer ends an indexer, whatever follows. -/
theorem selfDelimiting_closeIndexer (close : Char) (expected : Selector) :
    SelfDelimiting (closeIndexer close expected) := by
  intro text selector rest h
  obtain ⟨rfl, rfl⟩ := eq_of_closeIndexer h
  apply readsBefore_delimiter []
  intro more
  rw [List.nil_append, closeIndexer, if_pos rfl]

/-! ### Quoted texts, operators and literals -/

/-- A quoted text is read whatever stands behind its closing quote. -/
theorem exists_readQuoted {body value rest : List Char} (h : readQuoted body = .ok (value, rest)) :
    ∃ front, body = front ++ rest ∧ ∀ more, readQuoted (front ++ more) = .ok (value, more) := by
  refine ⟨(quoted value).tail, ?_, fun more => ?_⟩
  · exact (List.cons.inj (eq_of_readQuoted h)).2
  · exact readQuoted_quoted_append value more

/-- A quoted name ends with its closer, whatever follows. -/
theorem selfDelimiting_readQuotedName (close : Char) :
    SelfDelimiting (readQuotedName close) := by
  intro text selector rest h
  unfold readQuotedName at h
  split at h
  · next name r hr =>
    split at h
    · contradiction
    · next hname =>
      obtain _ | ⟨c, body⟩ := text
      · contradiction
      · obtain ⟨front, hbody, hfront⟩ := exists_readQuoted hr
        have htext : c :: body = (c :: front) ++ r := congrArg (List.cons c) hbody
        rw [htext]
        apply (selfDelimiting_closeIndexer close _ h).afterSpaces.prepend
        intro more remaining _ hmore
        have hquoted : readQuoted (((c :: front) ++ more).drop 1) = .ok (name, more) := hfront more
        simp only [readQuotedName, hquoted, if_neg hname]
        exact hmore
  · contradiction
  · contradiction

/-- Whether an operator has a second character is decided by the next one. -/
theorem looksOneAhead_readOperator : LooksOneAhead readOperator := by
  intro text operator rest h
  unfold readOperator at h
  split at h
  case h_1 | h_2 | h_10 => contradiction
  all_goals obtain ⟨rfl, rfl⟩ := Prod.mk.inj (Except.ok.inj h)
  case h_3 => exact readsBefore_lookahead ['=', '='] fun more _ => rfl
  case h_4 => exact readsBefore_lookahead ['!', '='] fun more _ => rfl
  case h_5 => exact readsBefore_lookahead ['<', '>'] fun more _ => rfl
  case h_6 => exact readsBefore_lookahead ['<', '='] fun more _ => rfl
  case h_8 => exact readsBefore_lookahead ['>', '='] fun more _ => rfl
  case h_7 r hlast hunequal hatMost =>
    obtain _ | ⟨c, r⟩ := r
    · exact (hlast rfl).elim
    · apply readsBefore_lookahead ['<']
      intro more hmore
      obtain ⟨more, rfl⟩ := List.head?_eq_some_iff.mp hmore
      exact readOperator_less (fun hc => hunequal r (hc ▸ rfl)) (fun hc => hatMost r (hc ▸ rfl))
  case h_9 r hlast hatLeast =>
    obtain _ | ⟨c, r⟩ := r
    · exact (hlast rfl).elim
    · apply readsBefore_lookahead ['>']
      intro more hmore
      obtain ⟨more, rfl⟩ := List.head?_eq_some_iff.mp hmore
      exact readOperator_greater (fun hc => hatLeast r (hc ▸ rfl))

/-- A number ends before the next character that is not part of it; the other literals are complete
in themselves. -/
theorem exists_readLiteral {text rest : List Char} {literal : Literal}
    (h : readLiteral text = .ok (literal, rest)) :
    ∃ front, text = front ++ rest ∧ front ≠ [] ∧ ∀ more, (EndsLiteral rest → EndsLiteral more) →
      readLiteral (front ++ more) = .ok (literal, more) := by
  unfold readLiteral at h
  split at h
  · next body =>
    split at h
    · next value r hr =>
      obtain ⟨rfl, rfl⟩ := Prod.mk.inj (Except.ok.inj h)
      obtain ⟨front, rfl, hfront⟩ := exists_readQuoted hr
      refine ⟨'\'' :: front, rfl, List.cons_ne_nil _ _, fun more _ => ?_⟩
      simp only [List.cons_append, readLiteral, hfront]
    · contradiction
    · contradiction
  · obtain ⟨rfl, rfl⟩ := Prod.mk.inj (Except.ok.inj h)
    exact ⟨['t', 'r', 'u', 'e'], rfl, List.cons_ne_nil _ _, fun more _ => rfl⟩
  · obtain ⟨rfl, rfl⟩ := Prod.mk.inj (Except.ok.inj h)
    exact ⟨['f', 'a', 'l', 's', 'e'], rfl, List.cons_ne_nil _ _, fun more _ => rfl⟩
  · obtain ⟨rfl, rfl⟩ := Prod.mk.inj (Except.ok.inj h)
    exact ⟨['n', 'u', 'l', 'l'], rfl, List.cons_ne_nil _ _, fun more _ => rfl⟩
  · next c tail _ _ _ _ =>
    split at h
    · next hstart =>
      split at h
      · next literal d r hliteral hdrop =>
        obtain ⟨rfl, rfl⟩ := Prod.mk.inj (Except.ok.inj h)
        have hend : isNumberChar d = false :=
          eq_false_of_mem_head?_dropWhile (Option.mem_def.mpr (congrArg List.head? hdrop))
        have hword : (c :: tail).takeWhile isNumberChar = c :: tail.takeWhile isNumberChar :=
          List.takeWhile_cons_of_pos (isNumberChar_of_isIndexChar hstart)
        have hfront : ∃ d ∈ ((c :: tail).takeWhile isNumberChar).head?, isIndexChar d = true := by
          rw [hword]
          exact ⟨c, rfl, hstart⟩
        refine ⟨(c :: tail).takeWhile isNumberChar, ?_, ?_, fun more hmore => ?_⟩
        · rw [← hdrop, List.takeWhile_append_dropWhile]
        · rw [hword]
          exact List.cons_ne_nil _ _
        · obtain ⟨e, more, rfl, he⟩ := hmore ⟨d, r, rfl, hend⟩
          rw [readLiteral_number hfront (List.all_eq_true.mp List.all_takeWhile) he, hliteral]
          rfl
      · contradiction
    · contradiction
  · contradiction

/-- Whether a number goes on is decided by the next character. -/
theorem looksOneAhead_readLiteral : LooksOneAhead readLiteral := by
  intro text literal rest h
  obtain ⟨front, rfl, -, hfront⟩ := exists_readLiteral h
  apply readsBefore_lookahead
  intro more hmore
  exact hfront more fun hrest => hrest.of_head? hmore

/-! ### Conditions of a filter -/

/-- A reader of conditions that looks at no more than one character behind a condition. -/
def ConditionReader.LooksOneAhead (nested : ConditionReader) : Prop :=
  JsonSelect.LooksOneAhead nested.read

/-- The second character of a connective, if there is one. -/
theorem exists_afterConnective (c : Char) (text : List Char) :
    ∃ again, text = again ++ afterConnective c text ∧
      ∀ more, more.head? = (afterConnective c text).head? →
        afterConnective c (again ++ more) = more := by
  by_cases hc : text.head? = some c
  · obtain ⟨rest, rfl⟩ := List.head?_eq_some_iff.mp hc
    have hskip : ∀ more, afterConnective c (c :: more) = more := fun more => if_pos rfl
    refine ⟨[c], ?_, fun more _ => hskip more⟩
    rw [hskip, List.singleton_append]
  · have hstay : afterConnective c text = text := if_neg hc
    refine ⟨[], by rw [hstay, List.nil_append], fun more hmore => ?_⟩
    rw [hstay] at hmore
    exact if_neg (hmore ▸ hc)

section

variable {nested : ConditionReader} (hn : nested.LooksOneAhead)

include hn

/-- The last condition of a filter stands before the closing parenthesis.  The conditions in front
of it are read in the same way when something else follows it. -/
theorem exists_last_of_readConditions {text rest : List Char} {conditions : List Condition}
    (h : readConditions nested text = .ok (conditions, rest)) :
    ∃ front word initial last, text = front ++ ')' :: rest ∧ front ≠ [] ∧
      conditions = initial ++ [last] ∧
      nested.read (word ++ ')' :: rest) = .ok (last, ')' :: rest) ∧
      ∀ more, readConditions nested (front ++ more) =
        (readConditions nested (word ++ more)).map fun (others, rest) =>
          (initial ++ others, rest) := by
  fun_induction readConditions nested text generalizing conditions rest with
  | case1 => contradiction
  | case2 => contradiction
  | case3 text condition r hr =>
    obtain ⟨rfl, rfl⟩ := Prod.mk.inj (Except.ok.inj h)
    have hshorter := nested.shortens hr
    obtain ⟨word, rfl, -⟩ := hn hr
    have hne : word ≠ [] := by
      rintro rfl
      exact absurd hshorter (by simp)
    refine ⟨word, word, [], condition, rfl, hne, rfl, hr, fun more => ?_⟩
    cases readConditions nested (word ++ more) <;> rfl
  | case4 text condition c r hr hc ih =>
    obtain ⟨⟨others, r'⟩, hothers, h⟩ := map_eq_ok_iff.mp h
    obtain ⟨rfl, rfl⟩ := Prod.mk.inj h
    obtain ⟨front', word, initial, last, hbehind, hne, rfl, hlast, hmore⟩ := ih hothers
    -- The one character that is looked at behind the condition is `c`, which is read here.
    obtain ⟨front, rfl, hfront⟩ := hn hr
    obtain ⟨again, hagain, hskip⟩ := exists_afterConnective c r
    refine ⟨front ++ c :: (again ++ front'), word, condition :: initial, last, ?_, by simp, rfl,
      hlast, fun more => ?_⟩
    · rw [List.append_assoc, List.cons_append, List.append_assoc, ← hbehind, ← hagain]
    · have hfirst : (front' ++ more).head? = (afterConnective c r).head? := by
        obtain ⟨d, front', rfl⟩ := List.exists_cons_of_ne_nil hne
        rw [hbehind]
        rfl
      rw [List.append_assoc, List.cons_append, List.append_assoc, readConditions_eq_bind,
        (hfront (c :: (again ++ (front' ++ more))) rfl).2]
      change afterCondition nested condition (c :: (again ++ (front' ++ more))) = _
      rw [afterCondition, if_neg hc, hskip (front' ++ more) hfirst, hmore more]
      cases readConditions nested (word ++ more) <;> rfl

/-- Conditions end with the closing parenthesis, whatever follows. -/
theorem selfDelimiting_readConditions : SelfDelimiting (readConditions nested) := by
  intro text conditions rest h
  obtain ⟨front, word, initial, last, rfl, -, rfl, hlast, hmore⟩ :=
    exists_last_of_readConditions hn h
  obtain ⟨consumed, hword, hread⟩ := hn hlast
  obtain rfl : word = consumed := List.append_cancel_right hword
  apply readsBefore_delimiter
  intro more
  rw [hmore, readConditions_eq_bind, (hread (')' :: more) rfl).2]
  rfl

/-- A filter ends with its closer, whatever follows. -/
theorem selfDelimiting_readFilter (close : Char) :
    SelfDelimiting (readFilter nested close) := by
  intro text selector rest h
  unfold readFilter at h
  split at h
  · next r =>
    obtain ⟨⟨conditions, r'⟩, hconditions, hclose⟩ := bind_eq_ok_iff.mp h
    obtain ⟨front, rfl, hfront⟩ := selfDelimiting_readConditions hn hconditions
    apply (selfDelimiting_closeIndexer close _ hclose).afterSpaces.prepend ('(' :: front)
    intro more remaining _ hmore
    exact bind_eq_ok_iff.mpr ⟨_, (hfront more trivial).2, hmore⟩
  · exact absurd h (refuseInIndexer_ne_ok _ _)

/-- An indexer is read whatever stands behind its closer. -/
theorem selfDelimiting_readIndexer (opening : Char) :
    SelfDelimiting (readIndexer nested (closerOf opening)) := by
  intro text selector rest h
  obtain ⟨spaces, htext, hskip⟩ := exists_skipSpaces text
  cases hr : skipSpaces text with
  | nil =>
    unfold readIndexer at h
    rw [hr] at h
    contradiction
  | cons c r =>
    rw [hr] at htext hskip
    rw [readIndexer_of_skipSpaces hr] at h
    split at h
    · next hc =>
      rw [htext]
      apply (selfDelimiting_readQuotedName _ h).prepend
      intro more remaining hmore hok
      obtain ⟨more, rfl⟩ := List.head?_eq_some_iff.mp hmore
      rw [readIndexer_of_skipSpaces (hskip (c :: more) rfl).2, if_pos hc, hok]
    · next hc =>
      split at h
      · next hc' =>
        rw [htext, List.append_cons]
        apply (selfDelimiting_readFilter hn _ h).prepend
        intro more remaining _ hok
        rw [← List.append_cons, readIndexer_of_skipSpaces (hskip (c :: more) rfl).2, if_neg hc,
          if_pos hc', hok]
      · rw [← hr] at h
        obtain ⟨body, rfl, hbody⟩ :=
          exists_isArrayIndexer_of_readArrayIndexer (isCloser_closerOf opening) h
        apply readsBefore_delimiter
        intro more
        exact readIndexer_append_cons (isCloser_closerOf opening) more nested hbody

/-! ### Paths and conditions -/

/-- The last character that an indexer takes up is its closer. -/
theorem suffix_of_readIndexer {opening : Char} {text rest : List Char} {selector : Selector}
    (h : readIndexer nested (closerOf opening) text = .ok (selector, rest)) :
    closerOf opening :: rest <:+ text := by
  have hskip := skipSpaces_suffix text
  cases hr : skipSpaces text with
  | nil =>
    unfold readIndexer at h
    rw [hr] at h
    contradiction
  | cons c r =>
    have hbehind : r <:+ text := (List.suffix_cons c r).trans (hr ▸ hskip)
    rw [readIndexer_of_skipSpaces hr] at h
    split at h
    · unfold readQuotedName at h
      split at h
      · next name behind hname =>
        split at h
        · contradiction
        · obtain ⟨-, hclosed⟩ := eq_of_closeIndexer h
          rw [← hclosed]
          exact (skipSpaces_suffix behind).trans ((suffix_of_readQuoted hname).trans hbehind)
      · contradiction
      · contradiction
    · split at h
      · unfold readFilter at h
        split at h
        · next body =>
          obtain ⟨⟨conditions, behind⟩, hconditions, h⟩ := bind_eq_ok_iff.mp h
          obtain ⟨front, hbody, -⟩ := selfDelimiting_readConditions hn hconditions
          obtain ⟨-, hclosed⟩ := eq_of_closeIndexer h
          have hsuffix : behind <:+ body := hbody ▸ List.suffix_append front behind
          rw [← hclosed]
          exact (skipSpaces_suffix behind).trans
            (hsuffix.trans ((List.suffix_cons '(' body).trans hbehind))
        · exact absurd h (refuseInIndexer_ne_ok _ _)
      · rw [← hr] at h
        obtain ⟨body, rfl, -⟩ :=
          exists_isArrayIndexer_of_readArrayIndexer (isCloser_closerOf opening) h
        exact List.suffix_append body _

/-- An indexer ends with its closer, and is read whatever stands behind that. -/
theorem exists_readIndexer {opening : Char} {text rest : List Char} {selector : Selector}
    (h : readIndexer nested (closerOf opening) text = .ok (selector, rest)) :
    ∃ body, text = body ++ [closerOf opening] ++ rest ∧ ∀ more,
      readIndexer nested (closerOf opening) (body ++ [closerOf opening] ++ more) =
        .ok (selector, more) := by
  obtain ⟨front, hfront, hread⟩ := selfDelimiting_readIndexer hn opening h
  obtain ⟨body, hbody⟩ := suffix_of_readIndexer hn h
  have htext : text = body ++ [closerOf opening] ++ rest := by
    rw [← hbody, List.append_assoc, List.singleton_append]
  obtain rfl : front = body ++ [closerOf opening] :=
    List.append_cancel_right (hfront.symm.trans htext)
  exact ⟨body, htext, fun more => (hread more trivial).2⟩

/-- A path does not end with a space, and it is read before everything at which paths end.  A single
dot shows only at that place. -/
theorem exists_readSegments {inFilter descending afterIndexer : Bool} {text rest : List Char}
    {selectors : List Selector}
    (h : readSegments nested inFilter descending afterIndexer text = .ok (selectors, rest)) :
    ∃ front, text = front ++ rest ∧ EndsTight front ∧ EndsPath inFilter rest ∧
      ∀ more, EndsPath inFilter more →
        readSegments nested inFilter descending afterIndexer (front ++ more) =
          .ok (selectors, more) := by
  fun_induction readSegments nested inFilter descending afterIndexer text
    generalizing selectors rest with
  | case1 =>
    obtain ⟨rfl, rfl⟩ := Prod.mk.inj (Except.ok.inj h)
    exact ⟨[], rfl, endsTight_nil, endsPath_nil, fun more hmore => readSegments_of_endsPath hmore⟩
  | case2 descending afterIndexer r ih =>
    obtain ⟨front, rfl, htight, hends, hfront⟩ := ih h
    refine ⟨['.', '.'] ++ front, rfl, (endsTight_concat ['.'] (by decide)).append htight, hends, ?_⟩
    intro more hmore
    exact readSegments_dots.trans (hfront more hmore)
  | case3 descending afterIndexer r hr ih =>
    obtain ⟨front, rfl, htight, hends, hfront⟩ := ih h
    refine ⟨['.'] ++ front, rfl, (endsTight_concat [] (by decide)).append htight, hends, ?_⟩
    intro more hmore
    have hsingle : ∀ c ∈ (front ++ rest).head?, c ≠ '.' := by
      rintro _ hc rfl
      obtain ⟨behind, hbehind⟩ := List.head?_eq_some_iff.mp hc
      exact hr behind hbehind
    have hdot : (front ++ more).head? ≠ some '.' := fun hc =>
      forall_head?_append hsingle (fun c hc => (hmore c hc).1) '.' hc rfl
    exact (readSegments_dot hdot).trans (hfront more hmore)
  | case4 => contradiction
  | case5 descending afterIndexer c r h₁ h₂ hc selector r' hi ih =>
    obtain ⟨⟨others, r''⟩, hothers, h⟩ := map_eq_ok_iff.mp h
    obtain ⟨rfl, rfl⟩ := Prod.mk.inj h
    obtain ⟨body, rfl, hread⟩ := exists_readIndexer hn hi
    obtain ⟨front, rfl, htight, hends, hfront⟩ := ih hothers
    have hclose : EndsTight (c :: body ++ [closerOf c]) :=
      endsTight_concat (c :: body) (isCloser_closerOf c).endsIndex.2
    refine ⟨c :: body ++ [closerOf c] ++ front, by simp, hclose.append htight, hends, ?_⟩
    intro more hmore
    rw [List.append_assoc, List.cons_append, List.cons_append, readSegments_opener hc]
    refine bind_eq_ok_iff.mpr ⟨_, hread (front ++ more), ?_⟩
    exact map_eq_ok_iff.mpr ⟨_, hfront more hmore, rfl⟩
  | case6 => contradiction
  | case7 descending afterIndexer c r h₁ h₂ hc hname hafter ih =>
    obtain rfl : afterIndexer = false := by simpa using hafter
    obtain ⟨⟨others, r'⟩, hothers, h⟩ := map_eq_ok_iff.mp h
    obtain ⟨rfl, rfl⟩ := Prod.mk.inj h
    have hrun : ∀ d ∈ c :: r.takeWhile (isNameChar inFilter), isNameChar inFilter d = true :=
      List.forall_mem_cons.mpr ⟨hname, List.all_eq_true.mp List.all_takeWhile⟩
    obtain ⟨front, hdrop, htight, hends, hfront⟩ := ih hothers
    refine ⟨(c :: r.takeWhile (isNameChar inFilter)) ++ front, ?_,
      (endsTight_of_forall_isNameChar hrun).append htight, hends, ?_⟩
    · rw [List.append_assoc, ← hdrop, List.cons_append, List.takeWhile_append_dropWhile]
    · intro more hmore
      have hstop : ∀ d ∈ (front ++ r').head?, isNameChar inFilter d = false :=
        hdrop ▸ fun d hd => eq_false_of_mem_head?_dropWhile hd
      have hend : ∀ d ∈ (front ++ more).head?, isNameChar inFilter d = false :=
        forall_head?_append hstop fun d hd => (hmore d hd).2.2.2
      rw [List.append_assoc, readSegments_name (List.cons_ne_nil _ _) hrun hend]
      exact map_eq_ok_iff.mpr ⟨_, hfront more hmore, rfl⟩
  | case8 descending afterIndexer c r h₁ h₂ hc hname =>
    obtain ⟨rfl, rfl⟩ := Prod.mk.inj (Except.ok.inj h)
    have hends : EndsPath inFilter (c :: r) := by
      rintro _ ⟨⟩
      obtain ⟨hbracket, hparen⟩ := not_or.mp hc
      exact ⟨fun hdot => h₂ hdot, hbracket, hparen, by simpa using hname⟩
    exact ⟨[], rfl, endsTight_nil, hends, fun more hmore => readSegments_of_endsPath hmore⟩

/-- Whether a path goes on is decided by the next character. -/
theorem looksOneAhead_readSegments (inFilter descending afterIndexer : Bool) :
    LooksOneAhead (readSegments nested inFilter descending afterIndexer) := by
  intro text selectors rest h
  obtain ⟨front, rfl, -, hends, hfront⟩ := exists_readSegments hn h
  apply readsBefore_lookahead
  intro more hmore
  exact hfront more (hends.of_head? hmore)

end

/-- Texts with the same first character are both empty or both not. -/
theorem isEmpty_eq_of_head? {text text' : List Char} (h : text.head? = text'.head?) :
    text.isEmpty = text'.isEmpty := by
  cases text with
  | nil => rw [List.head?_eq_none_iff.mp h.symm]
  | cons c text =>
    obtain ⟨more, rfl⟩ := List.head?_eq_some_iff.mp h.symm
    rfl

/-- Behind spaces a literal is over, and without them its end is where it was. -/
theorem endsLiteral_append_of_isBlank {spaces text more : List Char} (hspaces : IsBlank spaces)
    (h : EndsLiteral text → EndsLiteral more) (hends : EndsLiteral (spaces ++ text)) :
    EndsLiteral (spaces ++ more) := by
  cases spaces with
  | nil => exact h hends
  | cons c spaces =>
    obtain rfl : c = ' ' := hspaces c List.mem_cons_self
    exact ⟨' ', spaces ++ more, rfl, by decide⟩

/-- What follows an operator stands between spaces, and the character behind them is looked at.
Anything may take the place of that character behind which there is no more to the literal. -/
theorem exists_afterOperator {path : List Selector} {operator : Operator} {text rest : List Char}
    {condition : Condition} (h : afterOperator path operator text = .ok (condition, rest)) :
    (∃ c ∈ rest.head?, c ≠ ' ') ∧ ∃ front, text = front ++ rest ∧ front ≠ [] ∧
      ∀ more, skipSpaces more ≠ [] → (EndsLiteral rest → EndsLiteral more) →
        afterOperator path operator (front ++ more) = .ok (condition, skipSpaces more) := by
  unfold afterOperator at h
  split at h
  · contradiction
  · next htext =>
    obtain ⟨⟨literal, r⟩, hl, h⟩ := bind_eq_ok_iff.mp h
    dsimp only at h
    split at h
    · contradiction
    · next hrest =>
      obtain ⟨rfl, rfl⟩ := Prod.mk.inj (Except.ok.inj h)
      obtain ⟨before, hbefore, hskip⟩ := exists_skipSpaces text
      obtain ⟨front, hfront, hne, hliteral⟩ := exists_readLiteral hl
      obtain ⟨behind, hbehind, hblank⟩ := exists_isBlank_append_skipSpaces r
      have hwhole : text = (before ++ (front ++ behind)) ++ skipSpaces r := by
        rw [List.append_assoc, List.append_assoc, ← hbehind, ← hfront, ← hbefore]
      refine ⟨?_, before ++ (front ++ behind), hwhole, by simp [hne], fun more hmore hends => ?_⟩
      · obtain ⟨c, r', hr⟩ := List.exists_cons_of_ne_nil (mt List.isEmpty_iff.mpr hrest)
        rw [hr]
        refine ⟨c, rfl, ?_⟩
        rintro rfl
        exact skipSpaces_ne_space_cons r r' hr
      · obtain ⟨c, front, rfl⟩ := List.exists_cons_of_ne_nil hne
        have hstart : skipSpaces (before ++ (c :: front ++ (behind ++ more))) =
            c :: front ++ (behind ++ more) := (hskip _ (by rw [hfront]; rfl)).2
        have hread : readLiteral (c :: front ++ (behind ++ more)) = .ok (literal, behind ++ more) :=
          hliteral (behind ++ more) fun hr =>
            endsLiteral_append_of_isBlank hblank hends (hbehind ▸ hr)
        rw [List.append_assoc, List.append_assoc, afterOperator, hstart, if_neg (by simp)]
        refine bind_eq_ok_iff.mpr ⟨_, hread, ?_⟩
        dsimp only
        rw [skipSpaces_append_of_isBlank hblank, if_neg (by simpa using hmore)]

/-- A comparison is read before everything that ends its literal, and what it leaves over starts
behind the spaces. -/
theorem exists_readComparison {path : List Selector} {text rest : List Char}
    {condition : Condition} (h : readComparison path text = .ok (condition, rest))
    (hop : condition.operator ≠ .present) :
    (∃ c ∈ rest.head?, c ≠ ' ') ∧ ∃ front, text = front ++ rest ∧ front ≠ [] ∧
      ∀ more, skipSpaces more ≠ [] → (EndsLiteral rest → EndsLiteral more) →
        readComparison path (front ++ more) = .ok (condition, skipSpaces more) := by
  obtain ⟨spaces, htext, hskip⟩ := exists_skipSpaces text
  cases hr : skipSpaces text with
  | nil =>
    rw [readComparison, hr] at h
    contradiction
  | cons c r =>
    rw [hr] at htext hskip
    rw [readComparison_of_skipSpaces hr] at h
    split at h
    · obtain ⟨rfl, -⟩ := Prod.mk.inj (Except.ok.inj h)
      exact absurd rfl hop
    · next hc =>
      obtain ⟨⟨operator, r'⟩, ho, h⟩ := bind_eq_ok_iff.mp h
      obtain ⟨symbol, hsymbol, hoperator⟩ := looksOneAhead_readOperator ho
      obtain ⟨hstop, behind, rfl, hne, hbehind⟩ := exists_afterOperator h
      refine ⟨hstop, spaces ++ (symbol ++ behind), ?_, by simp [hne], fun more hmore hends => ?_⟩
      · rw [htext, hsymbol, List.append_assoc, List.append_assoc]
      · obtain ⟨d, behind, rfl⟩ := List.exists_cons_of_ne_nil hne
        obtain ⟨hhead, hread⟩ := hoperator (d :: behind ++ more) rfl
        obtain ⟨-, hstart⟩ := hskip (symbol ++ (d :: behind ++ more)) hhead
        obtain ⟨tail, htail⟩ := List.head?_eq_some_iff.mp hhead
        rw [htail] at hstart hread
        rw [List.append_assoc, List.append_assoc, htail, readComparison_of_skipSpaces hstart,
          if_neg hc]
        exact bind_eq_ok_iff.mpr ⟨_, hread, hbehind more hmore hends⟩

/-- A condition on presence is the path alone, with a closing parenthesis behind the spaces. -/
theorem eq_of_readComparison_presence {path : List Selector} {text rest : List Char}
    {condition : Condition} (h : readComparison path text = .ok (condition, rest))
    (hop : condition.operator = .present) :
    condition = .presence path ∧ rest.head? = some ')' ∧ skipSpaces text = rest := by
  rcases readComparison_cases h with hpresence | ⟨_, _, _, _, ho, -, rfl, -⟩
  · exact hpresence
  · exact absurd hop (ne_present_of_readOperator ho)

/-- What follows the path of a condition is read up to the next character. -/
theorem looksOneAhead_readComparison (path : List Selector) :
    LooksOneAhead (readComparison path) := by
  intro text condition rest h
  by_cases hop : condition.operator = .present
  · obtain ⟨rfl, hclose, hskip⟩ := eq_of_readComparison_presence h hop
    obtain ⟨spaces, htext, hblank⟩ := exists_isBlank_append_skipSpaces text
    rw [htext, hskip]
    apply readsBefore_lookahead
    intro more hmore
    obtain ⟨more, rfl⟩ := List.head?_eq_some_iff.mp (hmore.trans hclose)
    have hstart : skipSpaces (spaces ++ ')' :: more) = ')' :: more := by
      rw [skipSpaces_append_of_isBlank hblank, skipSpaces_cons_of_ne (by decide)]
    rw [readComparison_of_skipSpaces hstart, if_pos rfl]
  · obtain ⟨⟨c, hc, hspace⟩, front, rfl, -, hfront⟩ := exists_readComparison h hop
    apply readsBefore_lookahead
    intro more hmore
    obtain ⟨tail, htail⟩ := List.head?_eq_some_iff.mp (hmore.trans hc)
    have hskip : skipSpaces more = more := htail ▸ skipSpaces_cons_of_ne hspace tail
    have hread := hfront more (by rw [hskip, htail]; exact List.cons_ne_nil _ _) fun hrest =>
      hrest.of_head? hmore
    rwa [hskip] at hread

section

variable {nested : ConditionReader} (hn : nested.LooksOneAhead)

include hn

/-- A condition starts with its path, behind which it is read as a comparison. -/
theorem exists_readCondition {text rest : List Char} {condition : Condition}
    (h : readCondition nested text = .ok (condition, rest)) :
    ∃ front path behind, text = front ++ behind ∧ EndsPath true behind ∧
      readComparison path behind = .ok (condition, rest) ∧
      ∀ more, EndsPath true more →
        readCondition nested (front ++ more) = readComparison path more := by
  obtain ⟨spaces, htext, hskip⟩ := exists_skipSpaces text
  cases hr : skipSpaces text with
  | nil =>
    rw [readCondition, hr] at h
    contradiction
  | cons c r =>
    rw [hr] at htext hskip
    rw [readCondition_of_skipSpaces hr] at h
    split at h
    · next hc =>
      obtain ⟨⟨path, behind⟩, hpath, hcomparison⟩ := bind_eq_ok_iff.mp h
      obtain ⟨front, rfl, -, hends, hfront⟩ := exists_readSegments hn hpath
      refine ⟨spaces ++ c :: front, path, behind, ?_, hends, hcomparison, fun more hmore => ?_⟩
      · rw [htext, List.append_assoc, List.cons_append]
      · obtain ⟨-, hstart⟩ := hskip (c :: (front ++ more)) rfl
        rw [List.append_assoc, List.cons_append, readCondition_of_skipSpaces hstart, if_pos hc,
          hfront more hmore]
        rfl
    · contradiction

/-- A condition is read up to the next character behind it. -/
theorem looksOneAhead_readCondition : LooksOneAhead (readCondition nested) := by
  intro text condition rest h
  obtain ⟨front, path, behind, rfl, hends, hcomparison, hfront⟩ := exists_readCondition hn h
  apply (looksOneAhead_readComparison path hcomparison).prepend
  intro more remaining hmore hok
  rw [hfront more (hends.of_head? hmore), hok]

end

/-- A condition is read whatever stands behind the next character, at every level of nesting. -/
theorem looksOneAhead_conditionReader (limit levels : Nat) :
    (conditionReader limit levels).LooksOneAhead := by
  induction levels with
  | zero =>
    intro text condition rest h
    contradiction
  | succ levels ih => exact looksOneAhead_readCondition ih

end JsonSelect
