import Mathlib.Tactic.Common
import JsonSelect.Proofs.Grammar.Steps

/-!
# The grammar of array indexers

An array indexer is a wildcard, an index, a list of two indexes or more, or a slice.  Spaces may
stand around the wildcard and around each index, and nowhere else.  `IsArrayIndexer` says so
without reading anything, and `readIndexer_eq_ok_iff_isArrayIndexer` says that these texts are
what is read, each as what it stands for, whatever follows the closer.

All four readers start in the same way.  They look at the index characters at the front and at the
character that comes next after spaces, and what they have seen then is an index, or none, with
spaces around it (`afterIndexWord_skipSpaces_eq_cons_iff`).  That character is a closer, a comma, a
colon or the wildcard.  Since none of these is a space or an index character, the text before it is
all there is (`EndsIndex`).
-/

namespace JsonSelect

/-! ### The grammar -/

/-- Texts of spaces only. -/
def IsBlank (text : List Char) : Prop :=
  ∀ c ∈ text, c = ' '

/-- The texts of an index: a numeral with spaces around it. -/
def IsIndex (text : List Char) (index : Int64) : Prop :=
  ∃ before numeral after, text = before ++ numeral ++ after ∧
    IsBlank before ∧ IsNumeral numeral index ∧ IsBlank after

/-- The texts of an index that may be missing. -/
def IsOptionalIndex (text : List Char) : Option Int64 → Prop
  | none => IsBlank text
  | some index => IsIndex text index

/-- The texts of indexes with commas between them. -/
inductive AreIndexes : List Char → List Int64 → Prop
  | single {text : List Char} {index : Int64} : IsIndex text index → AreIndexes text [index]
  | comma {text more : List Char} {index : Int64} {indexes : List Int64} :
      IsIndex text index → AreIndexes more indexes →
      AreIndexes (text ++ ',' :: more) (index :: indexes)

/-- What follows the first colon of a slice: its end and, after a second colon, its step. -/
inductive EndsSlice : List Char → Option Int64 → Option Int64 → Prop
  | stop {text : List Char} {stop : Option Int64} :
      IsOptionalIndex text stop → EndsSlice text stop none
  | step {text more : List Char} {stop step : Option Int64} :
      IsOptionalIndex text stop → IsOptionalIndex more step → step ≠ some 0 →
      EndsSlice (text ++ ':' :: more) stop step

/-- The texts of array indexers, from the opener to the closer, with what they stand for. -/
inductive IsArrayIndexer : List Char → Selector → Prop
  | wildcard {before after : List Char} :
      IsBlank before → IsBlank after → IsArrayIndexer (before ++ '*' :: after) (.element none)
  | index {text : List Char} {index : Int64} :
      IsIndex text index → IsArrayIndexer text (.element (some index))
  | list {text : List Char} {indexes : List Int64} :
      2 ≤ indexes.length → AreIndexes text indexes → IsArrayIndexer text (.elements indexes)
  | slice {text more : List Char} {start stop step : Option Int64} :
      IsOptionalIndex text start → EndsSlice more stop step →
      IsArrayIndexer (text ++ ':' :: more) (.slice start stop step)

/-- A text in two parts is spaces only if both parts are. -/
theorem isBlank_append_iff {text more : List Char} :
    IsBlank (text ++ more) ↔ IsBlank text ∧ IsBlank more :=
  List.forall_mem_append

/-- There is at least one index. -/
theorem AreIndexes.ne_nil {text : List Char} {indexes : List Int64} (h : AreIndexes text indexes) :
    indexes ≠ [] := by
  cases h <;> exact List.cons_ne_nil _ _

/-- A slice does not stand still. -/
theorem EndsSlice.step_ne_zero {text : List Char} {stop step : Option Int64}
    (h : EndsSlice text stop step) : step ≠ some 0 := by
  cases h with
  | stop => exact (Option.some_ne_none 0).symm
  | step _ _ hstep => exact hstep

/-! ### Spaces -/

/-- In front of what is left after skipping there are spaces only. -/
theorem exists_isBlank_append_skipSpaces (text : List Char) :
    ∃ spaces, text = spaces ++ skipSpaces text ∧ IsBlank spaces := by
  refine ⟨text.takeWhile (· == ' '), List.takeWhile_append_dropWhile.symm, fun c hc => ?_⟩
  exact eq_of_beq (List.all_eq_true.mp List.all_takeWhile c hc)

/-- Spaces in front of a text are skipped with its own. -/
theorem skipSpaces_append_of_isBlank {spaces : List Char} (hspaces : IsBlank spaces)
    (text : List Char) : skipSpaces (spaces ++ text) = skipSpaces text :=
  List.dropWhile_append_of_pos fun c hc => beq_iff_eq.mpr (hspaces c hc)

/-- Spaces are skipped up to the first other character. -/
theorem skipSpaces_append_cons {spaces rest : List Char} {c : Char} (hspaces : IsBlank spaces)
    (hc : c ≠ ' ') : skipSpaces (spaces ++ c :: rest) = c :: rest := by
  rw [skipSpaces_append_of_isBlank hspaces, skipSpaces_cons_of_ne hc]

/-! ### Index characters -/

/-- The characters after which an index is over and that are no spaces. -/
def EndsIndex (c : Char) : Prop :=
  isIndexChar c = false ∧ c ≠ ' '

/-- A comma ends an index. -/
theorem endsIndex_comma : EndsIndex ',' := by
  constructor <;> decide

theorem endsIndex_colon : EndsIndex ':' := by
  constructor <;> decide

theorem endsIndex_wildcard : EndsIndex '*' := by
  constructor <;> decide

/-- An index character is neither a space nor the start of another kind of indexer. -/
theorem ne_of_isIndexChar {c : Char} (hc : isIndexChar c = true) :
    c ≠ ' ' ∧ c ≠ '\'' ∧ c ≠ '?' := by
  refine ⟨?_, ?_, ?_⟩
  all_goals
    rintro rfl
    exact absurd hc (by decide)

/-- A numeral consists of index characters, at least one. -/
theorem IsNumeral.forall_isIndexChar {numeral : List Char} {index : Int64}
    (h : IsNumeral numeral index) : numeral ≠ [] ∧ ∀ c ∈ numeral, isIndexChar c = true := by
  obtain ⟨digits, hdigits, hnumeral⟩ := h
  obtain ⟨hne, hall⟩ := isDigitRun_eq_true_iff.mp hdigits
  have hindex : ∀ c ∈ digits, isIndexChar c = true := by
    intro c hc
    rw [isIndexChar, hall c hc, Bool.true_or]
  rcases hnumeral with ⟨rfl, -⟩ | ⟨rfl, -⟩
  · exact ⟨hne, hindex⟩
  · exact ⟨List.cons_ne_nil _ _, List.forall_mem_cons.mpr ⟨by decide, hindex⟩⟩

/-- An index is read exactly if the index characters at the front are a numeral of it. -/
theorem readIndex_eq_ok_iff {text : List Char} {index : Int64} :
    readIndex text = .ok index ↔ IsNumeral (indexWord text) index := by
  rw [← readInt64_eq_some_iff]
  unfold readIndex
  by_cases hempty : indexWord text = []
  · simp [hempty, readInt64, isDigitRun]
  · simp only [List.isEmpty_iff, hempty, if_false]
    cases readInt64 (indexWord text) <;> simp

/-- An index is missing exactly if there is no index character at the front. -/
theorem readOptionalIndex_eq_ok_none_iff {text : List Char} :
    readOptionalIndex text = .ok none ↔ indexWord text = [] := by
  unfold readOptionalIndex
  by_cases hempty : indexWord text = []
  · simp [hempty]
  · simp [hempty, map_eq_ok_iff]

/-- An index that may be missing is read exactly if it would be read where it has to be there. -/
theorem readOptionalIndex_eq_ok_some_iff {text : List Char} {index : Int64} :
    readOptionalIndex text = .ok (some index) ↔ IsNumeral (indexWord text) index := by
  unfold readOptionalIndex
  by_cases hempty : indexWord text = []
  · have hnone : ¬IsNumeral [] index := fun h => h.forall_isIndexChar.1 rfl
    simp [hempty, hnone]
  · simp [hempty, map_eq_ok_iff, readIndex_eq_ok_iff]

/-! ### One index -/

section

variable {c : Char} (hc : EndsIndex c) {text rest : List Char}

include hc

/-- The index characters end at the first space behind them, or else at what ends the index. -/
theorem indexWord_append_cons {word after : List Char}
    (hword : ∀ d ∈ word, isIndexChar d = true) (hafter : IsBlank after) :
    indexWord (word ++ (after ++ c :: rest)) = word ∧
      afterIndexWord (word ++ (after ++ c :: rest)) = c :: rest := by
  have hend : ∀ d ∈ (after ++ c :: rest).head?, isIndexChar d = false := by
    intro d hd
    cases after with
    | nil =>
      obtain rfl := Option.some.inj hd
      exact hc.1
    | cons space after =>
      obtain rfl := Option.some.inj hd
      rw [hafter space List.mem_cons_self]
      decide
  constructor
  · exact takeWhile_append_of_head? hword hend
  · rw [afterIndexWord, dropWhile_append_of_head? hword hend, skipSpaces_append_cons hafter hc.2]

/-- Before a character that ends an index stand the index characters, with spaces around them. -/
theorem afterIndexWord_skipSpaces_eq_cons_iff {word : List Char} :
    afterIndexWord (skipSpaces text) = c :: rest ∧ indexWord (skipSpaces text) = word ↔
      ∃ before after, text = before ++ word ++ after ++ c :: rest ∧
        IsBlank before ∧ (∀ d ∈ word, isIndexChar d = true) ∧ IsBlank after := by
  constructor
  · rintro ⟨hrest, rfl⟩
    obtain ⟨before, htext, hbefore⟩ := exists_isBlank_append_skipSpaces text
    obtain ⟨after, hbehind, hafter⟩ :=
      exists_isBlank_append_skipSpaces ((skipSpaces text).dropWhile isIndexChar)
    refine ⟨before, after, ?_, hbefore, List.all_eq_true.mp List.all_takeWhile, hafter⟩
    have hskip : skipSpaces text = indexWord (skipSpaces text) ++ (after ++ c :: rest) := by
      rw [← hrest, afterIndexWord, ← hbehind, indexWord, List.takeWhile_append_dropWhile]
    rw [List.append_assoc, List.append_assoc, ← hskip, ← htext]
  · rintro ⟨before, after, rfl, hbefore, hword, hafter⟩
    cases word with
    | nil =>
      -- Without index characters the spaces are one run, which is skipped at once.
      rw [List.append_nil, skipSpaces_append_cons (isBlank_append_iff.mpr ⟨hbefore, hafter⟩) hc.2]
      exact (indexWord_append_cons hc hword (List.forall_mem_nil _)).symm
    | cons d word =>
      have hd : d ≠ ' ' := (ne_of_isIndexChar (hword d List.mem_cons_self)).1
      have hskip : skipSpaces (before ++ (d :: word) ++ after ++ c :: rest) =
          (d :: word) ++ (after ++ c :: rest) := by
        rw [List.append_assoc, List.append_assoc]
        exact skipSpaces_append_cons hbefore hd
      rw [hskip]
      exact (indexWord_append_cons hc hword hafter).symm

/-- What has been read as an index is one of its texts. -/
theorem exists_isIndex_of_readIndex {index : Int64}
    (hrest : afterIndexWord (skipSpaces text) = c :: rest)
    (hread : readIndex (skipSpaces text) = .ok index) :
    ∃ body, text = body ++ c :: rest ∧ IsIndex body index := by
  obtain ⟨before, after, htext, hbefore, -, hafter⟩ :=
    (afterIndexWord_skipSpaces_eq_cons_iff hc).mp ⟨hrest, rfl⟩
  exact ⟨_, htext, before, _, after, rfl, hbefore, readIndex_eq_ok_iff.mp hread, hafter⟩

/-- An index is read from each of its texts. -/
theorem readIndex_append_cons {body : List Char} {index : Int64} (hbody : IsIndex body index)
    (rest : List Char) :
    afterIndexWord (skipSpaces (body ++ c :: rest)) = c :: rest ∧
      readIndex (skipSpaces (body ++ c :: rest)) = .ok index := by
  obtain ⟨before, numeral, after, rfl, hbefore, hnumeral, hafter⟩ := hbody
  obtain ⟨hrest, hword⟩ := (afterIndexWord_skipSpaces_eq_cons_iff hc).mpr
    ⟨before, after, rfl, hbefore, hnumeral.forall_isIndexChar.2, hafter⟩
  exact ⟨hrest, readIndex_eq_ok_iff.mpr (hword.symm ▸ hnumeral)⟩

/-- What has been read as an index that may be missing is one of its texts. -/
theorem exists_isOptionalIndex_of_readOptionalIndex {index : Option Int64}
    (hrest : afterIndexWord (skipSpaces text) = c :: rest)
    (hread : readOptionalIndex (skipSpaces text) = .ok index) :
    ∃ body, text = body ++ c :: rest ∧ IsOptionalIndex body index := by
  cases index with
  | none =>
    have hword := readOptionalIndex_eq_ok_none_iff.mp hread
    obtain ⟨before, after, rfl, hbefore, -, hafter⟩ :=
      (afterIndexWord_skipSpaces_eq_cons_iff hc).mp ⟨hrest, hword⟩
    exact ⟨before ++ after, by simp, isBlank_append_iff.mpr ⟨hbefore, hafter⟩⟩
  | some index =>
    rw [readOptionalIndex_eq_ok_some_iff, ← readIndex_eq_ok_iff] at hread
    exact exists_isIndex_of_readIndex hc hrest hread

/-- An index that may be missing is read from each of its texts. -/
theorem readOptionalIndex_append_cons {body : List Char} {index : Option Int64}
    (hbody : IsOptionalIndex body index) (rest : List Char) :
    afterIndexWord (skipSpaces (body ++ c :: rest)) = c :: rest ∧
      readOptionalIndex (skipSpaces (body ++ c :: rest)) = .ok index := by
  cases index with
  | none =>
    rw [readOptionalIndex_eq_ok_none_iff, afterIndexWord_skipSpaces_eq_cons_iff hc]
    exact ⟨body, [], by simp, hbody, List.forall_mem_nil _, List.forall_mem_nil _⟩
  | some index =>
    rw [readOptionalIndex_eq_ok_some_iff, ← readIndex_eq_ok_iff]
    exact readIndex_append_cons hc hbody rest

end

/-! ### The closers -/

/-- The two closers of an indexer. -/
def IsCloser (c : Char) : Prop :=
  c = ']' ∨ c = ')'

/-- What closes an opener is a closer. -/
theorem isCloser_closerOf (opening : Char) : IsCloser (closerOf opening) := by
  unfold closerOf
  split
  · exact Or.inl rfl
  · exact Or.inr rfl

theorem isCloser_bracket : IsCloser ']' :=
  Or.inl rfl

/-- A closer ends an index. -/
theorem IsCloser.endsIndex {close : Char} (h : IsCloser close) : EndsIndex close := by
  rcases h with rfl | rfl <;> constructor <;> decide

/-- No closer stands for something else inside an indexer. -/
theorem IsCloser.ne {close : Char} (h : IsCloser close) :
    ',' ≠ close ∧ ':' ≠ close ∧ '*' ≠ close := by
  rcases h with rfl | rfl <;> decide

/-! ### What is read is in the grammar -/

section

variable {close : Char} (hclose : IsCloser close) {text rest : List Char} {selector : Selector}

include hclose

/-- What has been read as indexes is a text of them, up to the closer. -/
theorem exists_areIndexes_of_readIndexes {indexes : List Int64}
    (h : readIndexes close (skipSpaces text) = .ok (indexes, rest)) :
    ∃ body, text = body ++ close :: rest ∧ AreIndexes body indexes := by
  -- Each call of the reader starts behind spaces, so the text with them varies in the induction.
  generalize hstart : skipSpaces text = start at h
  fun_induction readIndexes close start generalizing text indexes rest with
  | case1 | case4 => exact absurd h (refuseInIndexer_ne_ok _ _)
  | case2 start behind hbehind =>
    subst hstart
    obtain ⟨index, hindex, h⟩ := map_eq_ok_iff.mp h
    obtain ⟨rfl, rfl⟩ := Prod.mk.inj h
    obtain ⟨body, htext, hbody⟩ := exists_isIndex_of_readIndex hclose.endsIndex hbehind hindex
    exact ⟨body, htext, .single hbody⟩
  | case3 start behind hbehind hne ih =>
    subst hstart
    obtain ⟨index, hindex, h⟩ := bind_eq_ok_iff.mp h
    obtain ⟨⟨indexes, behind'⟩, hindexes, h⟩ := map_eq_ok_iff.mp h
    obtain ⟨rfl, rfl⟩ := Prod.mk.inj h
    obtain ⟨body, rfl, hbody⟩ := exists_isIndex_of_readIndex endsIndex_comma hbehind hindex
    obtain ⟨more, rfl, hmore⟩ := ih rfl hindexes
    exact ⟨body ++ ',' :: more, by simp, .comma hbody hmore⟩

/-- What has been read as the step of a slice is a text of it, up to the closer, and not zero. -/
theorem exists_step_of_readStep {start stop : Option Int64}
    (h : readStep close start stop (skipSpaces text) = .ok (selector, rest)) :
    ∃ body step, text = body ++ close :: rest ∧ selector = .slice start stop step ∧
      IsOptionalIndex body step ∧ step ≠ some 0 := by
  unfold readStep at h
  split at h
  · exact absurd h (refuseInIndexer_ne_ok _ _)
  · next c behind hbehind =>
    split at h
    · next hc =>
      subst hc
      obtain ⟨step, hstep, h⟩ := bind_eq_ok_iff.mp h
      split at h
      · contradiction
      · next hzero =>
        obtain ⟨rfl, rfl⟩ := Prod.mk.inj (Except.ok.inj h)
        obtain ⟨body, htext, hbody⟩ :=
          exists_isOptionalIndex_of_readOptionalIndex hclose.endsIndex hbehind hstep
        exact ⟨body, step, htext, rfl, hbody, hzero⟩
    · exact absurd h (refuseInIndexer_ne_ok _ _)

/-- What has been read behind the first colon of a slice is a text of its end and step. -/
theorem exists_endsSlice_of_readStop {start : Option Int64}
    (h : readStop close start (skipSpaces text) = .ok (selector, rest)) :
    ∃ body stop step, text = body ++ close :: rest ∧ selector = .slice start stop step ∧
      EndsSlice body stop step := by
  unfold readStop at h
  split at h
  · exact absurd h (refuseInIndexer_ne_ok _ _)
  · next c behind hbehind =>
    split at h
    · next hc =>
      subst hc
      obtain ⟨stop, hstop, h⟩ := map_eq_ok_iff.mp h
      obtain ⟨rfl, rfl⟩ := Prod.mk.inj h
      obtain ⟨body, htext, hbody⟩ :=
        exists_isOptionalIndex_of_readOptionalIndex hclose.endsIndex hbehind hstop
      exact ⟨body, stop, none, htext, rfl, .stop hbody⟩
    · split at h
      · next hc =>
        subst hc
        obtain ⟨stop, hstop, hread⟩ := bind_eq_ok_iff.mp h
        obtain ⟨body, rfl, hbody⟩ :=
          exists_isOptionalIndex_of_readOptionalIndex endsIndex_colon hbehind hstop
        obtain ⟨more, step, rfl, rfl, hmore, hzero⟩ := exists_step_of_readStep hclose hread
        exact ⟨body ++ ':' :: more, stop, step, by simp, rfl, .step hbody hmore hzero⟩
      · exact absurd h (refuseInIndexer_ne_ok _ _)

/-- What has been read as an array indexer is one of its texts, up to the closer. -/
theorem exists_isArrayIndexer_of_readArrayIndexer
    (h : readArrayIndexer close (skipSpaces text) = .ok (selector, rest)) :
    ∃ body, text = body ++ close :: rest ∧ IsArrayIndexer body selector := by
  unfold readArrayIndexer at h
  split at h
  · exact absurd h (refuseInIndexer_ne_ok _ _)
  · next c behind hbehind =>
    split at h
    · next hc =>
      subst hc
      obtain ⟨index, hindex, h⟩ := map_eq_ok_iff.mp h
      obtain ⟨rfl, rfl⟩ := Prod.mk.inj h
      obtain ⟨body, htext, hbody⟩ := exists_isIndex_of_readIndex hclose.endsIndex hbehind hindex
      exact ⟨body, htext, .index hbody⟩
    split at h
    · next hc =>
      subst hc
      obtain ⟨index, hindex, h⟩ := bind_eq_ok_iff.mp h
      obtain ⟨⟨indexes, behind'⟩, hindexes, h⟩ := map_eq_ok_iff.mp h
      obtain ⟨rfl, rfl⟩ := Prod.mk.inj h
      obtain ⟨body, rfl, hbody⟩ := exists_isIndex_of_readIndex endsIndex_comma hbehind hindex
      obtain ⟨more, rfl, hmore⟩ := exists_areIndexes_of_readIndexes hclose hindexes
      have hlength : 2 ≤ (index :: indexes).length :=
        Nat.succ_le_succ (List.length_pos_iff.mpr hmore.ne_nil)
      exact ⟨body ++ ',' :: more, by simp, .list hlength (.comma hbody hmore)⟩
    split at h
    · next hc =>
      subst hc
      obtain ⟨start, hstart, hread⟩ := bind_eq_ok_iff.mp h
      obtain ⟨body, rfl, hbody⟩ :=
        exists_isOptionalIndex_of_readOptionalIndex endsIndex_colon hbehind hstart
      obtain ⟨more, stop, step, rfl, rfl, hmore⟩ := exists_endsSlice_of_readStop hclose hread
      exact ⟨body ++ ':' :: more, by simp, .slice hbody hmore⟩
    split at h
    · next hc =>
      obtain ⟨rfl, hword⟩ := hc
      obtain ⟨rfl, hclosed⟩ := eq_of_closeIndexer h
      obtain ⟨before, hbefore⟩ := exists_isOptionalIndex_of_readOptionalIndex endsIndex_wildcard
        hbehind (readOptionalIndex_eq_ok_none_iff.mpr (List.isEmpty_iff.mp hword))
      obtain ⟨after, hbehind, hafter⟩ := exists_isBlank_append_skipSpaces behind
      rw [hclosed] at hbehind
      subst hbehind
      exact ⟨before ++ '*' :: after, by simp [hbefore.1], .wildcard hbefore.2 hafter⟩
    · exact absurd h (refuseInIndexer_ne_ok _ _)

end

/-! ### What is in the grammar is read -/

section

variable {close : Char} (hclose : IsCloser close) {body : List Char} (rest : List Char)

include hclose

/-- Indexes are read from each of their texts. -/
theorem readIndexes_append_cons {indexes : List Int64} (h : AreIndexes body indexes) :
    readIndexes close (skipSpaces (body ++ close :: rest)) = .ok (indexes, rest) := by
  induction h with
  | single hindex =>
    obtain ⟨hbehind, hread⟩ := readIndex_append_cons hclose.endsIndex hindex rest
    rw [readIndexes_of_afterIndexWord hbehind, if_pos rfl, hread]
    rfl
  | @comma body more index indexes hindex _ ih =>
    obtain ⟨hbehind, hread⟩ := readIndex_append_cons endsIndex_comma hindex (more ++ close :: rest)
    rw [List.append_assoc, List.cons_append, readIndexes_of_afterIndexWord hbehind,
      if_neg hclose.ne.1, if_pos rfl, hread]
    exact map_eq_ok_iff.mpr ⟨_, ih, rfl⟩

/-- The step of a slice is read from each of its texts. -/
theorem readStep_append_cons (start stop : Option Int64) {step : Option Int64}
    (h : IsOptionalIndex body step) (hstep : step ≠ some 0) :
    readStep close start stop (skipSpaces (body ++ close :: rest)) =
      .ok (.slice start stop step, rest) := by
  obtain ⟨hbehind, hread⟩ := readOptionalIndex_append_cons hclose.endsIndex h rest
  simp only [readStep, hbehind, if_true, hread, Except.bind, if_neg hstep]

/-- The end and the step of a slice are read from each of their texts. -/
theorem readStop_append_cons (start : Option Int64) {stop step : Option Int64}
    (h : EndsSlice body stop step) :
    readStop close start (skipSpaces (body ++ close :: rest)) =
      .ok (.slice start stop step, rest) := by
  cases h with
  | stop hstop =>
    obtain ⟨hbehind, hread⟩ := readOptionalIndex_append_cons hclose.endsIndex hstop rest
    simp only [readStop, hbehind, if_true, hread, Except.map]
  | @step body more _ _ hstop hmore hstep =>
    obtain ⟨hbehind, hread⟩ :=
      readOptionalIndex_append_cons endsIndex_colon hstop (more ++ close :: rest)
    rw [List.append_assoc, List.cons_append]
    simp only [readStop, hbehind, if_neg hclose.ne.2.1, if_true, hread, Except.bind,
      readStep_append_cons hclose rest start stop hmore hstep]

/-- An array indexer is read from each of its texts, with spaces in front. -/
theorem readArrayIndexer_append_cons {selector : Selector} (h : IsArrayIndexer body selector) :
    readArrayIndexer close (skipSpaces (body ++ close :: rest)) = .ok (selector, rest) := by
  cases h with
  | @wildcard before after hbefore hafter =>
    have hnone : IsOptionalIndex before none := hbefore
    obtain ⟨hbehind, hread⟩ :=
      readOptionalIndex_append_cons endsIndex_wildcard hnone (after ++ close :: rest)
    have hword := readOptionalIndex_eq_ok_none_iff.mp hread
    rw [List.append_assoc, List.cons_append]
    simp [readArrayIndexer, hbehind, hclose.ne.2.2, hword,
      skipSpaces_append_cons hafter hclose.endsIndex.2, closeIndexer]
  | index hindex =>
    obtain ⟨hbehind, hread⟩ := readIndex_append_cons hclose.endsIndex hindex rest
    simp only [readArrayIndexer, hbehind, if_true, hread, Except.map]
  | list hlength hindexes =>
    cases hindexes with
    | single hindex => simp at hlength
    | @comma body more _ _ hindex hmore =>
      obtain ⟨hbehind, hread⟩ :=
        readIndex_append_cons endsIndex_comma hindex (more ++ close :: rest)
      rw [List.append_assoc, List.cons_append]
      simp only [readArrayIndexer, hbehind, if_neg hclose.ne.1, if_true, hread, Except.bind,
        Except.map, readIndexes_append_cons hclose rest hmore]
  | @slice body more start _ _ hstart hmore =>
    obtain ⟨hbehind, hread⟩ :=
      readOptionalIndex_append_cons endsIndex_colon hstart (more ++ close :: rest)
    have hcomma : ':' ≠ ',' := by decide
    rw [List.append_assoc, List.cons_append]
    simp only [readArrayIndexer, hbehind, if_neg hclose.ne.2.1, if_neg hcomma, if_true, hread,
      Except.bind, readStop_append_cons hclose rest start hmore]

/-- What starts like a quoted name or a filter is no array indexer. -/
theorem readArrayIndexer_ne_ok {c : Char} (hc : c = '\'' ∨ c = '?')
    (result : Selector × List Char) :
    readArrayIndexer close (c :: rest) ≠ .ok result := by
  have hafter : afterIndexWord (c :: rest) = c :: rest := by
    rcases hc with rfl | rfl <;> rfl
  have hne : c ≠ close ∧ c ≠ ',' ∧ c ≠ ':' ∧ c ≠ '*' := by
    rcases hclose with rfl | rfl <;> rcases hc with rfl | rfl <;> decide
  simp only [readArrayIndexer, hafter, if_neg hne.1, if_neg hne.2.1, if_neg hne.2.2.1, hne.2.2.2,
    false_and, if_false]
  exact refuseInIndexer_ne_ok _ _

/-- An array indexer is read from each of its texts. -/
theorem readIndexer_append_cons (nested : ConditionReader) {selector : Selector}
    (h : IsArrayIndexer body selector) :
    readIndexer nested close (body ++ close :: rest) = .ok (selector, rest) := by
  have hread := readArrayIndexer_append_cons hclose rest h
  cases hskip : skipSpaces (body ++ close :: rest) with
  | nil =>
    rw [hskip] at hread
    simp [readArrayIndexer, afterIndexWord, refuseInIndexer] at hread
  | cons c more =>
    rw [hskip] at hread
    have hc : ¬(c = '\'' ∨ c = '?') := fun hc => readArrayIndexer_ne_ok hclose more hc _ hread
    obtain ⟨hquote, hfilter⟩ := not_or.mp hc
    rw [readIndexer_of_skipSpaces hskip, if_neg hquote, if_neg hfilter, hread]

end

/-- An indexer that starts neither with a quote nor with a question mark is read exactly if its
text, up to its closer, is that of an array indexer, and as that array indexer.  In all other cases
reading it fails. -/
theorem readIndexer_eq_ok_iff_isArrayIndexer (nested : ConditionReader) (opening : Char)
    {text : List Char} (h : ∀ c ∈ (skipSpaces text).head?, c ≠ '\'' ∧ c ≠ '?') :
    (∀ selector rest, readIndexer nested (closerOf opening) text = .ok (selector, rest) ↔
      ∃ body, text = body ++ closerOf opening :: rest ∧ IsArrayIndexer body selector) ∧
    ((∃ failure, readIndexer nested (closerOf opening) text = .error failure) ↔
      ¬∃ body rest selector,
        text = body ++ closerOf opening :: rest ∧ IsArrayIndexer body selector) := by
  have hclose := isCloser_closerOf opening
  have hread (selector : Selector) (rest : List Char) :
      readIndexer nested (closerOf opening) text = .ok (selector, rest) ↔
        ∃ body, text = body ++ closerOf opening :: rest ∧ IsArrayIndexer body selector := by
    constructor
    · intro hok
      cases hskip : skipSpaces text with
      | nil => simp [readIndexer, hskip] at hok
      | cons c more =>
        obtain ⟨hquote, hfilter⟩ := h c (by rw [hskip]; rfl)
        rw [readIndexer_of_skipSpaces hskip, if_neg hquote, if_neg hfilter, ← hskip] at hok
        exact exists_isArrayIndexer_of_readArrayIndexer hclose hok
    · rintro ⟨body, rfl, hbody⟩
      exact readIndexer_append_cons hclose rest nested hbody
  refine ⟨hread, ?_⟩
  cases hresult : readIndexer nested (closerOf opening) text with
  | ok result =>
    obtain ⟨body, hbody⟩ := (hread result.1 result.2).mp hresult
    simp only [reduceCtorEq, exists_false, false_iff, not_not]
    exact ⟨body, result.2, result.1, hbody⟩
  | error failure =>
    simp only [Except.error.injEq, exists_eq', true_iff]
    rintro ⟨body, rest, selector, hbody⟩
    have hok := (hread selector rest).mpr ⟨body, hbody⟩
    rw [hresult] at hok
    contradiction

/-- A slice with spaces inside, in parentheses. -/
theorem readIndexer_eq_ok_iff_isArrayIndexer_slice :
    (∀ c ∈ (skipSpaces " 03: :-1 ).x".toList).head?, c ≠ '\'' ∧ c ≠ '?') ∧
      readIndexer (conditionReader 1 1) (closerOf '(') " 03: :-1 ).x".toList =
        .ok (.slice (some 3) none (some (-1)), ".x".toList) := by
  have hfirst : ∀ c ∈ (skipSpaces " 03: :-1 ).x".toList).head?, c ≠ '\'' ∧ c ≠ '?' := by
    simp [skipSpaces]
  have hstart : IsOptionalIndex [' ', '0', '3'] (some 3) :=
    ⟨[' '], ['0', '3'], [], rfl, by simp [IsBlank], ⟨['0', '3'], rfl, Or.inl ⟨rfl, rfl⟩⟩,
      by simp [IsBlank]⟩
  have hstop : IsOptionalIndex [' '] none := by
    simp [IsOptionalIndex, IsBlank]
  have hstep : IsOptionalIndex ['-', '1', ' '] (some (-1)) :=
    ⟨[], ['-', '1'], [' '], rfl, by simp [IsBlank], ⟨['1'], rfl, Or.inr ⟨rfl, rfl⟩⟩,
      by simp [IsBlank]⟩
  have hslice : IsArrayIndexer " 03: :-1 ".toList (.slice (some 3) none (some (-1))) :=
    .slice hstart (.step hstop hstep (by decide))
  exact ⟨hfirst,
    ((readIndexer_eq_ok_iff_isArrayIndexer (conditionReader 1 1) '(' hfirst).1 _ _).mpr
      ⟨" 03: :-1 ".toList, rfl, hslice⟩⟩

end JsonSelect
