import Mathlib.Tactic.Common
import JsonSelect.Proofs.Grammar.Surrounding
import JsonSelect.Proofs.Evaluation.DepthFirst

/-!
# Expressions of the document itself

The empty path selects the document it is evaluated on.  It is written as `$`, or as nothing at
all, with spaces around it.

Dots do not make a segment: they only lead on to the next one, and nothing asks whether there is
one.  So the empty path is read from dots alone as well, however many stand behind the `$`
(`compileWithin_eq_ok_nil_iff`), and `$.` selects the whole document (`compileWithin_root_dot`).
Everything else that is read as a path has a selector, since an indexer or a name is read where
the dots end (`readSegments_eq_ok_nil_iff`).
-/

namespace JsonSelect

/-- Texts of spaces, a `$` if there is one, so many dots, and spaces. -/
def IsRootText (dots : Nat) (text : List Char) : Prop :=
  ∃ before root after, text = before ++ (root ++ (List.replicate dots '.' ++ after)) ∧
    IsBlank before ∧ (root = [] ∨ root = ['$']) ∧ IsBlank after

/-! ### Dots without a segment -/

section

variable {nested : ConditionReader} {inFilter descending afterIndexer : Bool}
  {text rest : List Char}

/-- No dot is dropped in front of another character. -/
theorem dropWhile_dot_cons {c : Char} (h : c ≠ '.') :
    (c :: text).dropWhile (· == '.') = c :: text :=
  List.dropWhile_cons_of_neg (by simpa using h)

/-- No path ends where an indexer or a name starts. -/
theorem not_endsPath_cons {c : Char} (h : (c = '[' ∨ c = '(') ∨ isNameChar inFilter c = true) :
    ¬EndsPath inFilter (c :: text) := by
  intro hends
  obtain ⟨-, hbracket, hparen, hname⟩ := hends c rfl
  rcases h with (h | h) | h
  · exact hbracket h
  · exact hparen h
  · rw [hname] at h
    contradiction

/-- A segment gives a selector, or fails; and the path does not end where one starts. -/
theorem eq_ok_nil_iff_of_segment {c : Char} {outcome : Reading (List Selector)}
    (hdot : c ≠ '.') (hstart : (c = '[' ∨ c = '(') ∨ isNameChar inFilter c = true)
    (hne : outcome ≠ .ok ([], rest)) :
    outcome = .ok ([], rest) ↔
      (c :: text).dropWhile (· == '.') = rest ∧ EndsPath inFilter rest := by
  apply iff_of_false hne
  rw [dropWhile_dot_cons hdot]
  rintro ⟨rfl, hends⟩
  exact not_endsPath_cons hstart hends

/-- No selector is read from a text exactly if the path ends where its dots do. -/
theorem readSegments_eq_ok_nil_iff :
    readSegments nested inFilter descending afterIndexer text = .ok ([], rest) ↔
      text.dropWhile (· == '.') = rest ∧ EndsPath inFilter rest := by
  fun_induction readSegments nested inFilter descending afterIndexer text with
  | case1 =>
    constructor
    · intro h
      obtain ⟨-, rfl⟩ := Prod.mk.inj (Except.ok.inj h)
      exact ⟨rfl, endsPath_nil⟩
    · rintro ⟨rfl, -⟩
      rfl
  | case2 descending afterIndexer r ih => exact ih
  | case3 descending afterIndexer r hr ih => exact ih
  | case4 descending afterIndexer c r h₁ h₂ hc =>
    refine eq_ok_nil_iff_of_segment h₂ (Or.inl hc) ?_
    rintro ⟨⟩
  | case5 descending afterIndexer c r h₁ h₂ hc selector r' hi ih =>
    refine eq_ok_nil_iff_of_segment h₂ (Or.inl hc) fun h => ?_
    obtain ⟨_, -, h⟩ := map_eq_ok_iff.mp h
    exact List.cons_ne_nil _ _ (Prod.mk.inj h).1
  | case6 descending c r h₁ h₂ hc hname =>
    refine eq_ok_nil_iff_of_segment h₂ (Or.inr hname) ?_
    rintro ⟨⟩
  | case7 descending afterIndexer c r h₁ h₂ hc hname hafter ih =>
    refine eq_ok_nil_iff_of_segment h₂ (Or.inr hname) fun h => ?_
    obtain ⟨_, -, h⟩ := map_eq_ok_iff.mp h
    exact List.cons_ne_nil _ _ (Prod.mk.inj h).1
  | case8 descending afterIndexer c r h₁ h₂ hc hname =>
    obtain ⟨hbracket, hparen⟩ := not_or.mp hc
    rw [dropWhile_dot_cons h₂]
    constructor
    · intro h
      obtain ⟨-, rfl⟩ := Prod.mk.inj (Except.ok.inj h)
      refine ⟨rfl, ?_⟩
      rintro _ ⟨⟩
      exact ⟨h₂, hbracket, hparen, by simpa using hname⟩
    · rintro ⟨rfl, -⟩
      rfl

end

/-! ### Whole expressions -/

section

variable {limit : Nat} {text : List Char}

/-- A text of dots with spaces behind them. -/
theorem isBlank_dropWhile_dot_iff :
    IsBlank (text.dropWhile (· == '.')) ↔
      ∃ dots after, text = List.replicate dots '.' ++ after ∧ IsBlank after := by
  constructor
  · intro h
    refine ⟨(text.takeWhile (· == '.')).length, text.dropWhile (· == '.'), ?_, h⟩
    have hdots : text.takeWhile (· == '.') =
        List.replicate (text.takeWhile (· == '.')).length '.' :=
      List.eq_replicate_of_mem fun c hc => eq_of_beq (List.all_eq_true.mp List.all_takeWhile c hc)
    rw [← hdots, List.takeWhile_append_dropWhile]
  · rintro ⟨dots, after, rfl, hafter⟩
    have hpos : ∀ c ∈ List.replicate dots '.', (c == '.') = true := fun c hc =>
      beq_iff_eq.mpr (List.eq_of_mem_replicate hc)
    rw [List.dropWhile_append_of_pos hpos]
    exact fun c hc => hafter c ((List.dropWhile_sublist _).mem hc)

/-- A path is empty exactly if there are dots only, and spaces behind them. -/
theorem readWholePath_eq_ok_nil_iff :
    readWholePath limit text = .ok [] ↔ IsBlank (text.dropWhile (· == '.')) := by
  rw [readWholePath_eq_ok_iff]
  constructor
  · rintro ⟨rest, hread, hrest⟩
    obtain ⟨rfl, -⟩ := readSegments_eq_ok_nil_iff.mp hread
    exact hrest
  · intro h
    exact ⟨_, readSegments_eq_ok_nil_iff.mpr ⟨rfl, h.endsPath⟩, h⟩

/-- So is what follows the root. -/
theorem readAfterRoot_eq_ok_nil_iff :
    readAfterRoot limit text = .ok [] ↔ IsBlank (text.dropWhile (· == '.')) := by
  cases text with
  | nil => exact iff_of_true rfl (List.forall_mem_nil _)
  | cons c text =>
    rw [readAfterRoot]
    split
    · exact readWholePath_eq_ok_nil_iff
    · next hstart =>
      rw [dropWhile_dot_cons (not_or.mp hstart).1, ← skipSpaces_eq_nil_iff, ← List.isEmpty_iff]
      split <;> simp [*]

/-- An expression is read as the empty path exactly if it is a text of the root, with dots or
without. -/
theorem readExpression_eq_ok_nil_iff :
    readExpression limit text = .ok [] ↔ ∃ dots, IsRootText dots text := by
  constructor
  · intro h
    obtain ⟨before, htext, hbefore⟩ := exists_isBlank_append_skipSpaces text
    unfold readExpression at h
    split at h
    · next rest hskip =>
      obtain ⟨dots, after, rfl, hafter⟩ :=
        isBlank_dropWhile_dot_iff.mp (readAfterRoot_eq_ok_nil_iff.mp h)
      rw [hskip] at htext
      exact ⟨dots, before, ['$'], after, htext, hbefore, Or.inr rfl, hafter⟩
    · obtain ⟨dots, after, hskip, hafter⟩ :=
        isBlank_dropWhile_dot_iff.mp (readWholePath_eq_ok_nil_iff.mp h)
      rw [hskip] at htext
      exact ⟨dots, before, [], after, htext, hbefore, Or.inl rfl, hafter⟩
  · rintro ⟨dots, before, root, after, rfl, hbefore, hroot, hafter⟩
    have hrest : IsBlank ((List.replicate dots '.' ++ after).dropWhile (· == '.')) :=
      isBlank_dropWhile_dot_iff.mpr ⟨dots, after, rfl, hafter⟩
    rw [readExpression_append_of_isBlank hbefore]
    rcases hroot with rfl | rfl
    · rw [List.nil_append]
      cases dots with
      | zero =>
        rw [List.replicate_zero, List.nil_append, ← List.append_nil after,
          readExpression_append_of_isBlank hafter, readExpression, skipSpaces_nil]
        exact readWholePath_eq_ok_nil_iff.mpr (List.forall_mem_nil _)
      | succ dots =>
        rw [readExpression_of_head?]
        · exact readWholePath_eq_ok_nil_iff.mpr hrest
        all_goals simp [List.replicate_succ]
    · rw [List.singleton_append, readExpression_root_cons]
      exact readAfterRoot_eq_ok_nil_iff.mpr hrest

end

/-- Without dots the text of the root is written with spaces and a `$`. -/
theorem IsRootText.eq_space_or_eq_root {text : List Char} (h : IsRootText 0 text) {c : Char}
    (hc : c ∈ text) : c = ' ' ∨ c = '$' := by
  obtain ⟨before, root, after, rfl, hbefore, hroot, hafter⟩ := h
  simp only [List.mem_append, List.replicate_zero, List.not_mem_nil, false_or] at hc
  rcases hc with hc | hc | hc
  · exact Or.inl (hbefore c hc)
  · rcases hroot with rfl | rfl
    · exact absurd hc List.not_mem_nil
    · exact Or.inr (List.mem_singleton.mp hc)
  · exact Or.inl (hafter c hc)

/-- The empty path is compiled from the texts of the root with any number of dots in front of the
last spaces, and from no others.  It selects the document itself. -/
theorem compileWithin_eq_ok_nil_iff (limit : Nat) (text : String) :
    (compileWithin limit text = .ok [] ↔ ∃ dots, IsRootText dots text.toList) ∧
      ∀ strict root, (evaluate strict [] root).drain = ([root], none) := by
  constructor
  · rw [compileWithin_eq_ok_iff, readExpression_eq_ok_nil_iff]
  · intro strict root
    rfl

/-- The dot of `$.` leads to no segment, and is not noticed. -/
theorem compileWithin_root_dot :
    compileWithin defaultDepthLimit "$." = .ok [] ∧ ¬IsRootText 0 "$.".toList := by
  constructor
  · cbv
  · intro h
    have hdot : '.' ∈ "$.".toList := by decide
    exact absurd (h.eq_space_or_eq_root hdot) (by decide)

end JsonSelect
