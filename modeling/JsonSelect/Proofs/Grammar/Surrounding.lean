import Mathlib.Tactic.Common
import JsonSelect.Proofs.Grammar.Locality

/-!
# Text around a path

Spaces before an expression and a `$` in front of its first segment are passed over, and the rest
is read as it would be without them.  The place of a failure is known by the characters that remain
from there, so all positions move by as many characters as were put in front
(`compileWithin_append_of_readExpression`).

Spaces behind an expression are harder, since they could complete something.  They never do: a path
does not end with a space, and where it ends a space says no more than the end of the text
(`exists_readSegments`).  Hence the spaces that are put behind are left over as they are.
-/

namespace JsonSelect

/-! ### In front of an expression -/

/-- A text of so many spaces. -/
def spacesText (count : Nat) : String :=
  String.ofList (List.replicate count ' ')

theorem toList_spacesText (count : Nat) : (spacesText count).toList = List.replicate count ' ' :=
  String.toList_ofList

theorem isBlank_spacesText (count : Nat) : IsBlank (spacesText count).toList := by
  intro c hc
  rw [toList_spacesText] at hc
  exact List.eq_of_mem_replicate hc

/-- The same error so many characters later. -/
def PathError.later (error : PathError) (count : Nat) : PathError :=
  { error with position := error.position + count }

section

variable {limit : Nat}

/-- If characters in front of an expression change nothing about what is read, errors are noticed
as many characters later. -/
theorem compileWithin_append_of_readExpression {front text : String}
    (h : readExpression limit (front.toList ++ text.toList) = readExpression limit text.toList) :
    compileWithin limit (front ++ text) =
      (compileWithin limit text).mapError (·.later front.toList.length) := by
  unfold compileWithin
  rw [String.toList_append, h, List.length_append]
  cases hread : readExpression limit text.toList with
  | ok path => rfl
  | error failure =>
    have hlength := (failsWithin_readExpression limit text.toList failure hread).length_le
    have hposition : front.toList.length + text.toList.length - failure.rest.length =
        text.toList.length - failure.rest.length + front.toList.length := by
      omega
    simp only [Except.mapError, Failure.toError, PathError.later, hposition]

/-- Spaces in front of an expression change nothing. -/
theorem readExpression_append_of_isBlank {front : List Char} (hfront : IsBlank front)
    (text : List Char) : readExpression limit (front ++ text) = readExpression limit text := by
  rw [readExpression, readExpression, skipSpaces_append_of_isBlank hfront]

/-- A `$` may stand before the dot or the bracket of the first segment. -/
theorem readExpression_root_of_head? {text : List Char}
    (h : ∃ c ∈ text.head?, c = '.' ∨ c = '[') :
    readExpression limit ('$' :: text) = readExpression limit text := by
  obtain ⟨c, hc, hstart⟩ := h
  obtain ⟨text, rfl⟩ := List.head?_eq_some_iff.mp hc
  have hroot : readExpression limit ('$' :: c :: text) = readWholePath limit (c :: text) := by
    apply readExpression_root
    rintro _ ⟨⟩
    exact hstart
  rw [hroot, readExpression_of_head?]
  all_goals rcases hstart with rfl | rfl <;> simp

end

/-! ### Behind an expression -/

/-- Nothing is left after skipping exactly if there are spaces only. -/
theorem skipSpaces_eq_nil_iff {text : List Char} : skipSpaces text = [] ↔ IsBlank text := by
  constructor
  · intro h
    obtain ⟨spaces, htext, hspaces⟩ := exists_isBlank_append_skipSpaces text
    rw [h, List.append_nil] at htext
    exact htext ▸ hspaces
  · intro h
    rw [← List.append_nil text, skipSpaces_append_of_isBlank h, skipSpaces_nil]

/-- A path ends at spaces, and at the end of the text. -/
theorem IsBlank.endsPath {text : List Char} {inFilter : Bool} (h : IsBlank text) :
    EndsPath inFilter text := by
  intro c hc
  obtain rfl : c = ' ' := h c (List.mem_of_mem_head? hc)
  cases inFilter <;> decide

section

variable {limit : Nat} {text : List Char} {path : List Selector}

/-- A path fills a text if nothing but spaces is left over. -/
theorem readWholePath_eq_ok_iff :
    readWholePath limit text = .ok path ↔
      ∃ rest, readSegments (conditionReader limit limit) false false false text =
        .ok (path, rest) ∧ IsBlank rest := by
  rw [readWholePath_eq_bind, bind_eq_ok_iff]
  constructor
  · rintro ⟨⟨selectors, rest⟩, hread, h⟩
    dsimp only at h
    split at h
    · next hempty =>
      obtain rfl := Except.ok.inj h
      exact ⟨rest, hread, skipSpaces_eq_nil_iff.mp (List.isEmpty_iff.mp hempty)⟩
    · contradiction
  · rintro ⟨rest, hread, hrest⟩
    have hempty : (skipSpaces rest).isEmpty :=
      List.isEmpty_iff.mpr (skipSpaces_eq_nil_iff.mpr hrest)
    exact ⟨(path, rest), hread, if_pos hempty⟩

/-- Spaces behind the root are no path. -/
theorem readAfterRoot_of_isBlank (h : IsBlank text) : readAfterRoot limit text = .ok [] := by
  cases text with
  | nil => rfl
  | cons c text =>
    obtain rfl : c = ' ' := h c List.mem_cons_self
    rw [readAfterRoot, if_neg (by decide), skipSpaces_eq_nil_iff.mpr h]
    rfl

variable {blank : List Char} (hblank : IsBlank blank)

include hblank

/-- Spaces behind a text are left over behind a part that does not end with one. -/
theorem exists_of_append_isBlank {front rest : List Char} (hfront : EndsTight front)
    (h : text ++ blank = front ++ rest) : ∃ more, text = front ++ more ∧ rest = more ++ blank := by
  rcases List.append_eq_append_iff.mp h with ⟨middle, rfl, rfl⟩ | hmore
  · rcases List.eq_nil_or_concat middle with rfl | ⟨middle, c, rfl⟩
    · exact ⟨[], by simp, rfl⟩
    · have hspace : c = ' ' := hblank c (by simp)
      exact absurd hspace (hfront c (by simp))
  · exact hmore

/-- Spaces behind a path change nothing. -/
theorem readWholePath_append_isBlank :
    readWholePath limit (text ++ blank) = .ok path ↔ readWholePath limit text = .ok path := by
  have hn : (conditionReader limit limit).LooksOneAhead := looksOneAhead_conditionReader _ _
  rw [readWholePath_eq_ok_iff, readWholePath_eq_ok_iff]
  constructor
  · rintro ⟨rest, hread, hrest⟩
    obtain ⟨front, htext, htight, -, hfront⟩ := exists_readSegments hn hread
    obtain ⟨more, rfl, rfl⟩ := exists_of_append_isBlank hblank htight htext
    have hmore : IsBlank more := (isBlank_append_iff.mp hrest).1
    exact ⟨more, hfront more hmore.endsPath, hmore⟩
  · rintro ⟨rest, hread, hrest⟩
    obtain ⟨front, rfl, -, -, hfront⟩ := exists_readSegments hn hread
    have hmore : IsBlank (rest ++ blank) := isBlank_append_iff.mpr ⟨hrest, hblank⟩
    refine ⟨rest ++ blank, ?_, hmore⟩
    rw [List.append_assoc]
    exact hfront _ hmore.endsPath

/-- Spaces behind what follows the root change nothing. -/
theorem readAfterRoot_append_isBlank :
    readAfterRoot limit (text ++ blank) = .ok path ↔ readAfterRoot limit text = .ok path := by
  by_cases htext : IsBlank text
  · have hwhole : IsBlank (text ++ blank) := isBlank_append_iff.mpr ⟨htext, hblank⟩
    rw [readAfterRoot_of_isBlank htext, readAfterRoot_of_isBlank hwhole]
  · cases text with
    | nil => exact absurd (List.forall_mem_nil _) htext
    | cons c text =>
      have hempty : ¬(skipSpaces (c :: text)).isEmpty := fun h =>
        htext (skipSpaces_eq_nil_iff.mp (List.isEmpty_iff.mp h))
      have hempty' : ¬(skipSpaces (c :: (text ++ blank))).isEmpty := fun h =>
        htext (isBlank_append_iff.mp (skipSpaces_eq_nil_iff.mp (List.isEmpty_iff.mp h))).1
      have hwhole : readWholePath limit (c :: text ++ blank) = .ok path ↔
          readWholePath limit (c :: text) = .ok path := readWholePath_append_isBlank hblank
      rw [List.cons_append] at hwhole ⊢
      rw [readAfterRoot, readAfterRoot, if_neg hempty, if_neg hempty']
      split
      · exact hwhole
      · simp

/-- Spaces behind an expression change nothing. -/
theorem readExpression_append_isBlank :
    readExpression limit (text ++ blank) = .ok path ↔ readExpression limit text = .ok path := by
  obtain ⟨front, htext, hfront⟩ := exists_isBlank_append_skipSpaces text
  rw [htext, List.append_assoc, readExpression_append_of_isBlank hfront,
    readExpression_append_of_isBlank hfront]
  cases hskip : skipSpaces text with
  | nil =>
    rw [List.nil_append, ← List.append_nil blank, readExpression_append_of_isBlank hblank]
  | cons c rest =>
    have hc : c ≠ ' ' := by
      rintro rfl
      exact skipSpaces_ne_space_cons text rest hskip
    by_cases hroot : c = '$'
    · subst hroot
      rw [List.cons_append, readExpression_root_cons, readExpression_root_cons]
      exact readAfterRoot_append_isBlank hblank
    · rw [readExpression_of_head?, readExpression_of_head?]
      · exact readWholePath_append_isBlank hblank
      all_goals simp [hc, hroot]

end

/-- Spaces in front of an expression, and a `$` in front of its first segment, change neither the
path that it is compiled to nor the cause of an error, which is noticed as many characters later.
Spaces behind an expression change nothing about whether it is compiled, and to which path. -/
theorem compileWithin_surrounded (limit : Nat) (text : String) :
    (∀ count, compileWithin limit (spacesText count ++ text) =
      (compileWithin limit text).mapError (·.later count)) ∧
    ((∃ c ∈ text.toList.head?, c = '.' ∨ c = '[') → compileWithin limit ("$" ++ text) =
      (compileWithin limit text).mapError (·.later 1)) ∧
    ∀ count path, compileWithin limit (text ++ spacesText count) = .ok path ↔
      compileWithin limit text = .ok path := by
  refine ⟨fun count => ?_, fun hstart => ?_, fun count path => ?_⟩
  · have hread : readExpression limit ((spacesText count).toList ++ text.toList) =
        readExpression limit text.toList :=
      readExpression_append_of_isBlank (isBlank_spacesText count) text.toList
    have hlength : (spacesText count).toList.length = count := by
      rw [toList_spacesText, List.length_replicate]
    rw [compileWithin_append_of_readExpression hread, hlength]
  · exact compileWithin_append_of_readExpression (readExpression_root_of_head? hstart)
  · rw [compileWithin_eq_ok_iff, compileWithin_eq_ok_iff, String.toList_append]
    exact readExpression_append_isBlank (isBlank_spacesText count)

/-- Behind a `$` the point in `[1.5]` is refused one character later. -/
theorem compileWithin_surrounded_root :
    (∃ c ∈ "[1.5]".toList.head?, c = '.' ∨ c = '[') ∧
      compileWithin 3 ("$" ++ "[1.5]") = .error ⟨.unexpectedInIndexer '.', 3⟩ := by
  have hstart : ∃ c ∈ "[1.5]".toList.head?, c = '.' ∨ c = '[' := ⟨'[', rfl, Or.inr rfl⟩
  have herror : compileWithin 3 "[1.5]" = .error ⟨.unexpectedInIndexer '.', 2⟩ := by
    cbv
  refine ⟨hstart, ?_⟩
  rw [(compileWithin_surrounded 3 "[1.5]").2.1 hstart, herror]
  rfl

end JsonSelect
