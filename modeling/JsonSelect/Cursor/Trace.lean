import JsonSelect.Grammar.Error
import JsonSelect.Text.Place

/-!
# Reading with a cursor

The readers of the grammar take the characters that remain and know no positions.  A reader with a
cursor keeps the whole text and a position in it, looks at the current character and moves on.  It
counts how deeply conditions are nested by a counter that goes up and down, cuts names and numbers
out of the text between two positions, and stores the bounds of a slice in three numbered slots.
None of this is safe by itself: a cursor can be moved behind the end of the text, positions can
come in the wrong order, a slot can be missing, and nothing says that a loop ends.

A reading with a cursor is therefore traced.  Each move, each cut, each store and each return of a
reader of paths, indexers and conditions leaves an entry with the position of the cursor at that
time.
-/

namespace JsonSelect

variable {α : Type}

/-! ### Traces -/

/-- What can happen in a reading with a cursor. -/
inductive TraceEvent where
  /-- The cursor has been moved. -/
  | moved
  /-- The text between two positions has been taken. -/
  | taken (first last : Nat)
  /-- A number has been stored in a slot for the bounds of a slice. -/
  | stored (slot : Nat)
  /-- The segments of a path have been read; `complete` is returned for a text that is at its
  end. -/
  | path (inFilter complete : Bool)
  /-- An indexer has been read, from its opener at the first position. -/
  | indexer (opening : Char) (first : Nat)
  /-- The reading of a condition has ended, which was started at the first position; the depth has
  been counted before and after it. -/
  | condition (successful : Bool) (first before after : Nat)
  deriving DecidableEq

/-- An event with the position of the cursor when it happened. -/
structure TraceEntry where
  event : TraceEvent
  position : Nat
  deriving DecidableEq

/-- A place in a text, with the depth that has been reached and a trace of how the place was come
to, oldest entry first. -/
structure Cursor where
  place : Place
  depth : Nat
  trace : List TraceEntry

/-- A reader with a cursor.  It has no result if it does not end; if it fails, it leaves a cursor
as well. -/
abbrev Traced (α : Type) :=
  ExceptT PathError (StateT Cursor Option) α

namespace Cursor

/-- The start of a text. -/
def start (text : String) : Cursor :=
  ⟨.start text, 0, []⟩

/-- The position in the text. -/
def position (cursor : Cursor) : Nat :=
  cursor.place.position

/-- The characters from the cursor on. -/
def rest (cursor : Cursor) : List Char :=
  cursor.place.rest

/-- The cursor with one more entry in its trace. -/
def record (cursor : Cursor) (event : TraceEvent) : Cursor :=
  { cursor with trace := cursor.trace ++ [⟨event, cursor.position⟩] }

/-- The cursor moved to another place. -/
def moveTo (cursor : Cursor) (place : Place) : Cursor :=
  { cursor with place }.record .moved

end Cursor

/-! ### Steps of a reading -/

namespace Traced

/-- The position of the cursor. -/
def position : Traced Nat :=
  return (← get).position

/-- The depth that has been reached. -/
def depth : Traced Nat :=
  return (← get).depth

/-- The current character. -/
def current? : Traced (Option Char) :=
  return (← get).place.current?

/-- The character at some distance from the cursor. -/
def peek? (offset : Nat) : Traced (Option Char) :=
  return (← get).place.peek? offset

/-- Leaves an entry in the trace. -/
def record (event : TraceEvent) : Traced Unit :=
  modify fun cursor => cursor.record event

/-- Moves one character further on, even if there is none. -/
def advance : Traced Unit :=
  modify fun cursor => cursor.moveTo cursor.place.advance

/-- Moves behind the spaces that follow. -/
def skipSpaces : Traced Unit :=
  modify fun cursor => cursor.moveTo cursor.place.skipSpaces

/-- Moves behind a word if the text goes on with it, and says whether it does. -/
def afterWord (word : String) : Traced Bool := do
  let cursor ← get
  match cursor.place.afterWord? word with
  | some place => do
    set (cursor.moveTo place)
    return true
  | none => return false

/-- Takes the text between two positions. -/
def textBetween (first last : Nat) : Traced String := do
  record (.taken first last)
  return (← get).place.between first last

/-- Fails at a position. -/
def failAt (cause : Cause) (position : Nat) : Traced α :=
  throw ⟨cause, position⟩

/-- Fails at the cursor. -/
def fail (cause : Cause) : Traced α := do
  failAt cause (← position)

/-- The current character; there has to be one. -/
def ensure (cause : Cause) : Traced Char := do
  match ← current? with
  | some c => return c
  | none => fail cause

end Traced

end JsonSelect
