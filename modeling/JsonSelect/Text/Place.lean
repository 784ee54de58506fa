import JsonSelect.Grammar.Reading

/-!
# Places in a text

A place is a position in a text, counted in characters. It may lie beyond the end, where there is
nothing to see. Looking around leaves the place as it is; moving gives a new one.
-/

namespace JsonSelect

/-- What is left behind the longest front of a kind. -/
theorem drop_length_takeWhile {α : Type} (p : α → Bool) (elements : List α) :
    elements.drop (elements.takeWhile p).length = elements.dropWhile p :=
  calc elements.drop (elements.takeWhile p).length
    _ = (elements.takeWhile p ++ elements.dropWhile p).drop (elements.takeWhile p).length := by
      rw [List.takeWhile_append_dropWhile]
    _ = elements.dropWhile p := List.drop_left

/-- A text with a position in it or beyond it. -/
structure Place where
  text : List Char
  position : Nat

namespace Place

/-- The start of a text. -/
def start (text : String) : Place :=
  ⟨text.toList, 0⟩

/-- The characters from the place on. -/
def rest (place : Place) : List Char :=
  place.text.drop place.position

/-- Whether nothing is left. -/
def atEnd (place : Place) : Bool :=
  place.rest.isEmpty

/-- The character at a position of the text, if it has one. -/
def at? (place : Place) (position : Nat) : Option Char :=
  place.text[position]?

/-- The character at some distance from the place. -/
def peek? (place : Place) (offset : Nat) : Option Char :=
  place.at? (place.position + offset)

/-- The character at the place. -/
def current? (place : Place) : Option Char :=
  place.peek? 0

/-- The text between two positions. -/
def between (place : Place) (first last : Nat) : String :=
  String.ofList ((place.text.take last).drop first)

/-- The place one character further on, even if there is none. -/
def advance (place : Place) : Place :=
  { place with position := place.position + 1 }

/-- The place after the spaces that follow. -/
def skipSpaces (place : Place) : Place :=
  { place with position := place.position + (place.rest.takeWhile (· == ' ')).length }

/-- The place after a word, if the text goes on with that word. -/
def afterWord? (place : Place) (word : String) : Option Place :=
  if word.toList.isPrefixOf place.rest then
    some { place with position := place.position + word.length }
  else none

/-- One character further on, all but the first of the characters are left. -/
theorem rest_advance (place : Place) : place.advance.rest = place.rest.tail := by
  simp [advance, rest]

/-- Nothing is left exactly at the end of the text and beyond it. -/
theorem atEnd_eq_true_iff {place : Place} :
    place.atEnd = true ↔ place.text.length ≤ place.position := by
  simp [atEnd, rest]

/-- Behind the spaces, the same is left as after skipping them in what was left. -/
theorem rest_skipSpaces (place : Place) :
    place.skipSpaces.rest = JsonSelect.skipSpaces place.rest := by
  have hrest : place.skipSpaces.rest =
      place.rest.drop (place.rest.takeWhile (· == ' ')).length := by
    simp only [skipSpaces, rest, List.drop_drop]
  rw [hrest, drop_length_takeWhile, JsonSelect.skipSpaces]

/-- What was left is the word with what is left behind it. -/
theorem rest_of_afterWord? {place next : Place} {word : String}
    (h : place.afterWord? word = some next) : place.rest = word.toList ++ next.rest := by
  unfold afterWord? at h
  split at h
  · next hp =>
    obtain rfl := Option.some.inj h
    obtain ⟨tail, ht⟩ : word.toList <+: place.rest := by simpa using hp
    have : List.drop word.length place.rest = tail := by
      rw [← ht]
      simp [← String.length_toList]
    simp only [rest, ← List.drop_drop] at this ⊢
    rw [this]
    exact ht.symm
  · simp at h

end Place

end JsonSelect
