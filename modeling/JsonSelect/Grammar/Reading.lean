import JsonSelect.Grammar.Error

/-!
# Reading from what remains

A reader takes the characters that remain and returns what it has read with the characters that
remain after it. If it fails, it returns a cause with the characters that remain from the place at
which the failure was noticed; the position of that place follows from their number.
-/

namespace JsonSelect

/-- A cause with the characters that remain from the place at which it was noticed. -/
structure Failure where
  cause : Cause
  rest : List Char
  deriving DecidableEq

/-- The error that a failure amounts to in an expression of the given length. -/
def Failure.toError (failure : Failure) (length : Nat) : PathError :=
  ⟨failure.cause, length - failure.rest.length⟩

/-- The outcome of reading from the characters that remain: what was read and what remains after
it, or a failure. -/
abbrev Reading (α : Type) :=
  Except Failure (α × List Char)

/-- A mapped outcome is a value exactly if the outcome is one that maps to it. -/
theorem map_eq_ok_iff {ε α β : Type} {outcome : Except ε α} {f : α → β} {b : β} :
    outcome.map f = .ok b ↔ ∃ a, outcome = .ok a ∧ f a = b := by
  cases outcome <;> simp [Except.map]

/-- Two steps in a row give a value exactly if both do. -/
theorem bind_eq_ok_iff {ε α β : Type} {outcome : Except ε α} {f : α → Except ε β} {b : β} :
    outcome.bind f = .ok b ↔ ∃ a, outcome = .ok a ∧ f a = .ok b := by
  cases outcome <;> simp [Except.bind]

/-! ### Spaces -/

/-- Drops the spaces at the front. Only the space itself counts as blank in an expression. -/
def skipSpaces (text : List Char) : List Char :=
  text.dropWhile (· == ' ')

/-- Skipping spaces leaves no more than there was. -/
theorem length_skipSpaces_le (text : List Char) : (skipSpaces text).length ≤ text.length :=
  (List.dropWhile_sublist _).length_le

@[simp] theorem skipSpaces_nil : skipSpaces [] = [] :=
  rfl

@[simp] theorem skipSpaces_space_cons (text : List Char) :
    skipSpaces (' ' :: text) = skipSpaces text := by
  simp [skipSpaces]

/-- Nothing is skipped in front of another character. -/
theorem skipSpaces_cons_of_ne {c : Char} (h : c ≠ ' ') (text : List Char) :
    skipSpaces (c :: text) = c :: text := by
  simp [skipSpaces, h]

/-- What is left never starts with a space. -/
theorem skipSpaces_ne_space_cons (text rest : List Char) : skipSpaces text ≠ ' ' :: rest := by
  intro h
  have := List.head?_dropWhile_not (· == ' ') text
  simp only [skipSpaces] at h
  simp [h] at this

end JsonSelect
