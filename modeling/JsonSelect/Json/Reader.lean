import JsonSelect.Numeric.Decimal
import JsonSelect.Json.Basic

/-!
# Reading JSON

A document is read strictly: one value with blanks around it and nothing else, no commas or
zeros too many, no control characters or halves of surrogate pairs in strings. Of members that
share a name the first gives the place and the last gives the value. At most 127 arrays and
objects may be nested in one another, and a number has to be a finite one.

A reader takes the characters that remain and returns a value with those that remain after it,
or nothing. What a reader returns is always shorter than what it took; `ValueReader` carries
that fact, because the loops over elements and members end by it.
-/

namespace JsonSelect

/-- Whether a character may stand between the parts of a document. -/
def isJsonBlank (c : Char) : Bool :=
  c = ' ' || c = '\t' || c = '\n' || c = '\r'

/-- Drops the blanks at the front. -/
def skipJsonBlanks (text : List Char) : List Char :=
  text.dropWhile isJsonBlank

/-- Skipping blanks leaves no more than there was. -/
theorem length_skipJsonBlanks_le (text : List Char) :
    (skipJsonBlanks text).length ≤ text.length :=
  (List.dropWhile_sublist _).length_le

/-! ### Strings -/

/-- The value of a hexadecimal digit of either case. -/
def hexDigitValue? (c : Char) : Option Nat :=
  if c.isDigit then some (c.toNat - '0'.toNat)
  else if 'a' ≤ c ∧ c ≤ 'f' then some (c.toNat - 'a'.toNat + 10)
  else if 'A' ≤ c ∧ c ≤ 'F' then some (c.toNat - 'A'.toNat + 10)
  else none

/-- The 16-bit unit written by four hexadecimal digits. -/
def hexUnit? (a b c d : Char) : Option Nat := do
  return ((16 * (← hexDigitValue? a) + (← hexDigitValue? b)) * 16 + (← hexDigitValue? c)) * 16 +
    (← hexDigitValue? d)

/-- The character for a unit that stands alone; halves of surrogate pairs are none. -/
def charOfUnit? (unit : Nat) : Option Char :=
  if unit < 0xD800 ∨ 0xDFFF < unit then some (Char.ofNat unit) else none

/-- The character for a surrogate pair. -/
def charOfPair? (high low : Nat) : Option Char :=
  if (0xD800 ≤ high ∧ high ≤ 0xDBFF) ∧ (0xDC00 ≤ low ∧ low ≤ 0xDFFF) then
    some (Char.ofNat (0x10000 + (high - 0xD800) * 0x400 + (low - 0xDC00)))
  else none

/-- The character that a letter after a backslash stands for. -/
def charOfEscape? : Char → Option Char
  | '"' => some '"'
  | '\\' => some '\\'
  | '/' => some '/'
  | 'b' => some '\x08'
  | 'f' => some '\x0c'
  | 'n' => some '\n'
  | 'r' => some '\r'
  | 't' => some '\t'
  | _ => none

/-- Puts a character in front of what has been read of a string. -/
def consBody (c : Char) (result : Option (List Char × List Char)) :
    Option (List Char × List Char) :=
  result.map fun (body, rest) => (c :: body, rest)

/-- A body with one more character in front leaves the same rest. -/
theorem exists_of_consBody {c : Char} {result : Option (List Char × List Char)}
    {body rest : List Char} (h : consBody c result = some (body, rest)) :
    ∃ body', result = some (body', rest) := by
  obtain ⟨⟨body', r⟩, hr, he⟩ := Option.map_eq_some_iff.1 h
  obtain ⟨-, rfl⟩ := Prod.mk.inj he
  exact ⟨body', hr⟩

/-- Reads the rest of a string after its opening quote. -/
def readStringBody : List Char → Option (List Char × List Char)
  | [] => none
  | '"' :: rest => some ([], rest)
  | '\\' :: 'u' :: a :: b :: c :: d :: rest =>
    match (hexUnit? a b c d).bind charOfUnit? with
    | some char => consBody char (readStringBody rest)
    | none =>
      match rest with
      | '\\' :: 'u' :: e :: f :: g :: h :: rest =>
        match hexUnit? a b c d, hexUnit? e f g h with
        | some high, some low =>
          match charOfPair? high low with
          | some char => consBody char (readStringBody rest)
          | none => none
        | _, _ => none
      | _ => none
  | '\\' :: c :: rest =>
    match charOfEscape? c with
    | some char => consBody char (readStringBody rest)
    | none => none
  | c :: rest =>
    if c.toNat < 32 ∨ c = '\\' then none
    else consBody c (readStringBody rest)

/-- Reading the body of a string takes at least its closing quote. -/
theorem length_lt_of_readStringBody {text body rest : List Char}
    (h : readStringBody text = some (body, rest)) : rest.length < text.length := by
  fun_induction readStringBody text generalizing body rest with
  | case1 | case5 | case6 | case7 | case9 | case10 => contradiction
  | case2 =>
    obtain ⟨-, rfl⟩ := Prod.mk.inj (Option.some.inj h)
    exact Nat.lt_succ_self _
  | case3 _ _ _ _ _ _ _ ih
  | case4 _ _ _ _ _ _ _ _ _ _ _ _ _ _ _ _ ih
  | case8 _ _ _ _ _ ih
  | case11 _ _ _ _ _ _ ih =>
    obtain ⟨body', hr⟩ := exists_of_consBody h
    have shorter := ih hr
    simp only [List.length_cons]
    omega

/-! ### Numbers -/

/-- Splits off the digits at the front; there has to be one at least. -/
def takeDigits? (text : List Char) : Option (List Char × List Char) :=
  let digits := text.takeWhile Char.isDigit
  if digits.isEmpty then none else some (digits, text.dropWhile Char.isDigit)

/-- Reads the digits after a point, if there is one. -/
def readFraction? : List Char → Option (Option (List Char) × List Char)
  | '.' :: rest => (takeDigits? rest).map fun (digits, rest) => (some digits, rest)
  | rest => some (none, rest)

/-- Reads an exponent with its optional sign, if there is one. -/
def readPower? : List Char → Option (Option Int × List Char)
  | c :: rest =>
    if c = 'e' ∨ c = 'E' then
      match rest with
      | '-' :: rest =>
        (takeDigits? rest).map fun (ds, rest) => (some (-(digitsValue ds : Int)), rest)
      | '+' :: rest => (takeDigits? rest).map fun (ds, rest) => (some (digitsValue ds : Int), rest)
      | rest => (takeDigits? rest).map fun (ds, rest) => (some (digitsValue ds : Int), rest)
    else some (none, c :: rest)
  | [] => some (none, [])

/-- The number with the given parts: a whole number if it is written as one and lies in range,
unless it is a negative zero; otherwise floating point, as long as that is finite. -/
def Number.ofParts? (negative : Bool) (whole : List Char) (fraction : Option (List Char))
    (power : Option Int) : Option Number :=
  let value : Int := if negative then -(digitsValue whole : Int) else digitsValue whole
  if h : (fraction = none ∧ power = none ∧ ¬(negative ∧ value = 0)) ∧
      (-0x8000000000000000 ≤ value ∧ value < 0x10000000000000000) then
    some (.integer value h.2)
  else
    match (Decimal.ofDigits whole (fraction.getD []) (power.getD 0)).toBinary64 negative with
    | .finite x => some (.float x)
    | _ => none

/-- Reads a number without its sign. A zero at the front has to be the only digit before the
point. -/
def readUnsigned (negative : Bool) (text : List Char) : Option (Number × List Char) := do
  let (whole, rest) ← takeDigits? text
  if whole.head? = some '0' ∧ whole ≠ ['0'] then none else
    let (fraction, rest) ← readFraction? rest
    let (power, rest) ← readPower? rest
    let number ← Number.ofParts? negative whole fraction power
    return (number, rest)

/-- Reads a number. -/
def readNumber : List Char → Option (Number × List Char)
  | '-' :: rest => readUnsigned true rest
  | text => readUnsigned false text

/-- Splitting off digits takes at least one. -/
theorem length_lt_of_takeDigits? {text digits rest : List Char}
    (h : takeDigits? text = some (digits, rest)) : rest.length < text.length := by
  unfold takeDigits? at h
  dsimp only at h
  split at h
  · contradiction
  · next hd =>
    obtain ⟨-, rfl⟩ := Prod.mk.inj (Option.some.inj h)
    have whole := congrArg List.length
      (List.takeWhile_append_dropWhile (p := Char.isDigit) (l := text))
    rw [List.length_append] at whole
    have some_digit := List.length_pos_iff.2 (mt List.isEmpty_iff.2 hd)
    omega

/-- Reading a fraction, which may be missing, leaves no more than there was. -/
theorem length_le_of_readFraction? {text rest : List Char} {digits : Option (List Char)}
    (h : readFraction? text = some (digits, rest)) : rest.length ≤ text.length := by
  unfold readFraction? at h
  split at h
  · obtain ⟨⟨ds, r⟩, hd, he⟩ := Option.map_eq_some_iff.1 h
    obtain ⟨-, rfl⟩ := Prod.mk.inj he
    have shorter := length_lt_of_takeDigits? hd
    simp only [List.length_cons]
    omega
  · obtain ⟨-, rfl⟩ := Prod.mk.inj (Option.some.inj h)
    exact Nat.le_refl _

/-- Reading an exponent, which may be missing, leaves no more than there was. -/
theorem length_le_of_readPower? {text rest : List Char} {power : Option Int}
    (h : readPower? text = some (power, rest)) : rest.length ≤ text.length := by
  unfold readPower? at h
  split at h
  · split at h
    · split at h
      all_goals
        obtain ⟨⟨ds, r⟩, hd, he⟩ := Option.map_eq_some_iff.1 h
        obtain ⟨-, rfl⟩ := Prod.mk.inj he
        have shorter := length_lt_of_takeDigits? hd
        simp only [List.length_cons]
        omega
    · obtain ⟨-, rfl⟩ := Prod.mk.inj (Option.some.inj h)
      exact Nat.le_refl _
  · obtain ⟨-, rfl⟩ := Prod.mk.inj (Option.some.inj h)
    exact Nat.le_refl _

/-- Reading a number without its sign takes at least one digit. -/
theorem length_lt_of_readUnsigned {negative : Bool} {text rest : List Char} {number : Number}
    (h : readUnsigned negative text = some (number, rest)) : rest.length < text.length := by
  simp only [readUnsigned, Option.bind_eq_bind, Option.bind_eq_some_iff] at h
  obtain ⟨⟨whole, r₁⟩, h₁, h⟩ := h
  split at h
  · contradiction
  · obtain ⟨⟨fraction, r₂⟩, h₂, ⟨power, r₃⟩, h₃, n, -, h₄⟩ := by
      simpa only [Option.bind_eq_some_iff] using h
    obtain ⟨-, rfl⟩ := Prod.mk.inj (Option.some.inj h₄)
    have shorter := length_lt_of_takeDigits? h₁
    have h₂ := length_le_of_readFraction? h₂
    have h₃ := length_le_of_readPower? h₃
    dsimp only at *
    omega

/-- Reading a number takes at least one character. -/
theorem length_lt_of_readNumber {text rest : List Char} {number : Number}
    (h : readNumber text = some (number, rest)) : rest.length < text.length := by
  unfold readNumber at h
  split at h
  · exact Nat.lt_succ_of_lt (length_lt_of_readUnsigned h)
  · exact length_lt_of_readUnsigned h

/-! ### Values -/

/-- A reader of values that always makes progress. -/
structure ValueReader where
  read : List Char → Option (Json × List Char)
  shortens : ∀ {text value rest}, read text = some (value, rest) → rest.length < text.length

/-- Reads a word, a string or a number. -/
def readScalar (text : List Char) : Option (Json × List Char) :=
  match text with
  | '"' :: rest =>
    (readStringBody rest).map fun (body, rest) => (.string (String.ofList body), rest)
  | 'n' :: 'u' :: 'l' :: 'l' :: rest => some (.null, rest)
  | 't' :: 'r' :: 'u' :: 'e' :: rest => some (.boolean true, rest)
  | 'f' :: 'a' :: 'l' :: 's' :: 'e' :: rest => some (.boolean false, rest)
  | text => (readNumber text).map fun (number, rest) => (.number number, rest)

/-- Reading a value that is no container takes at least one character. -/
theorem length_lt_of_readScalar {text rest : List Char} {value : Json}
    (h : readScalar text = some (value, rest)) : rest.length < text.length := by
  unfold readScalar at h
  split at h
  · obtain ⟨⟨body, r⟩, hb, he⟩ := Option.map_eq_some_iff.1 h
    obtain ⟨-, rfl⟩ := Prod.mk.inj he
    exact Nat.lt_succ_of_lt (length_lt_of_readStringBody hb)
  · obtain ⟨-, rfl⟩ := Prod.mk.inj (Option.some.inj h)
    simp only [List.length_cons]
    omega
  · obtain ⟨-, rfl⟩ := Prod.mk.inj (Option.some.inj h)
    simp only [List.length_cons]
    omega
  · obtain ⟨-, rfl⟩ := Prod.mk.inj (Option.some.inj h)
    simp only [List.length_cons]
    omega
  · obtain ⟨⟨number, r⟩, hn, he⟩ := Option.map_eq_some_iff.1 h
    obtain ⟨-, rfl⟩ := Prod.mk.inj he
    exact length_lt_of_readNumber hn

/-- What follows the first character after blanks is shorter than the whole. -/
theorem length_lt_of_skipJsonBlanks {text rest : List Char} {c : Char}
    (h : skipJsonBlanks text = c :: rest) : rest.length < text.length := by
  have before := length_skipJsonBlanks_le text
  rw [h, List.length_cons] at before
  exact before

set_option linter.unusedVariables false in
/-- Reads the elements of an array from the first one to the closing bracket. -/
def readElements (nested : ValueReader) (text : List Char) : Option (List Json × List Char) :=
  match h : nested.read (skipJsonBlanks text) with
  | none => none
  | some (value, rest) =>
    match h' : skipJsonBlanks rest with
    | ']' :: rest' => some ([value], rest')
    | ',' :: rest' =>
      (readElements nested rest').map fun (values, rest) => (value :: values, rest)
    | _ => none
termination_by text.length
decreasing_by
  have progress := nested.shortens h
  have before := length_skipJsonBlanks_le text
  have after := length_skipJsonBlanks_le rest
  simp only [h', List.length_cons] at after
  omega

/-- Reads a name in quotes and the colon after it. -/
def readName (text : List Char) : Option (String × List Char) :=
  match skipJsonBlanks text with
  | '"' :: rest =>
    match readStringBody rest with
    | some (body, rest) =>
      match skipJsonBlanks rest with
      | ':' :: rest => some (String.ofList body, rest)
      | _ => none
    | none => none
  | _ => none

/-- Reading a name takes at least its opening quote. -/
theorem length_lt_of_readName {text rest : List Char} {name : String}
    (h : readName text = some (name, rest)) : rest.length < text.length := by
  unfold readName at h
  split at h
  · next r hr =>
    split at h
    · next body r₂ hb =>
      split at h
      · next r₃ hr₃ =>
        obtain ⟨-, rfl⟩ := Prod.mk.inj (Option.some.inj h)
        have h₁ := length_lt_of_skipJsonBlanks hr
        have h₂ := length_lt_of_readStringBody hb
        have h₃ := length_lt_of_skipJsonBlanks hr₃
        omega
      · contradiction
    · contradiction
  · contradiction

set_option linter.unusedVariables false in
/-- Reads the members of an object from the first one to the closing brace. -/
def readMembers (nested : ValueReader) (text : List Char) :
    Option (List (String × Json) × List Char) :=
  match hn : readName text with
  | none => none
  | some (name, afterName) =>
    match h : nested.read (skipJsonBlanks afterName) with
    | none => none
    | some (value, rest) =>
      match h' : skipJsonBlanks rest with
      | '\x7d' :: rest' => some ([(name, value)], rest')
      | ',' :: rest' =>
        (readMembers nested rest').map fun (members, rest) => ((name, value) :: members, rest)
      | _ => none
termination_by text.length
decreasing_by
  have named := length_lt_of_readName hn
  have progress := nested.shortens h
  have before := length_skipJsonBlanks_le afterName
  have after := length_skipJsonBlanks_le rest
  simp only [h', List.length_cons] at after
  omega

/-- Adds a member, or gives the member of that name a new value at its old place. -/
def putMember (members : List (String × Json)) (name : String) (value : Json) :
    List (String × Json) :=
  match members with
  | [] => [(name, value)]
  | (other, old) :: rest =>
    if other = name then (name, value) :: rest else (other, old) :: putMember rest name value

/-- The members of an object, one for each name. -/
def uniteMembers (members : List (String × Json)) : List (String × Json) :=
  members.foldl (fun united (name, value) => putMember united name value) []

/-- Reads an array after its opening bracket. -/
def readArray (nested : ValueReader) (text : List Char) : Option (Json × List Char) :=
  match skipJsonBlanks text with
  | ']' :: rest => some (.array [], rest)
  | _ => (readElements nested text).map fun (elements, rest) => (.array elements, rest)

/-- Reads an object after its opening brace. -/
def readObject (nested : ValueReader) (text : List Char) : Option (Json × List Char) :=
  match skipJsonBlanks text with
  | '\x7d' :: rest => some (.object [], rest)
  | _ => (readMembers nested text).map fun (members, rest) => (.object (uniteMembers members), rest)

/-- Reading the elements of an array takes at least the closing bracket. -/
theorem length_lt_of_readElements (nested : ValueReader) {text rest : List Char}
    {values : List Json} (h : readElements nested text = some (values, rest)) :
    rest.length < text.length := by
  fun_induction readElements nested text generalizing values rest with
  | case1 => contradiction
  | case2 text value r hv r' hr =>
    obtain ⟨-, rfl⟩ := Prod.mk.inj (Option.some.inj h)
    have before := length_skipJsonBlanks_le text
    have progress := nested.shortens hv
    have after := length_lt_of_skipJsonBlanks hr
    omega
  | case3 text value r hv r' hr ih =>
    obtain ⟨⟨vs, r''⟩, hm, he⟩ := Option.map_eq_some_iff.1 h
    obtain ⟨-, rfl⟩ := Prod.mk.inj he
    have before := length_skipJsonBlanks_le text
    have progress := nested.shortens hv
    have after := length_lt_of_skipJsonBlanks hr
    have further := ih hm
    omega
  | case4 => contradiction

/-- Reading the members of an object takes at least the closing brace. -/
theorem length_lt_of_readMembers (nested : ValueReader) {text rest : List Char}
    {members : List (String × Json)} (h : readMembers nested text = some (members, rest)) :
    rest.length < text.length := by
  fun_induction readMembers nested text generalizing members rest with
  | case1 => contradiction
  | case2 => contradiction
  | case3 text name r₁ hn value r hv r' hr =>
    obtain ⟨-, rfl⟩ := Prod.mk.inj (Option.some.inj h)
    have named := length_lt_of_readName hn
    have before := length_skipJsonBlanks_le r₁
    have progress := nested.shortens hv
    have after := length_lt_of_skipJsonBlanks hr
    omega
  | case4 text name r₁ hn value r hv r' hr ih =>
    obtain ⟨⟨ms, r''⟩, hm, he⟩ := Option.map_eq_some_iff.1 h
    obtain ⟨-, rfl⟩ := Prod.mk.inj he
    have named := length_lt_of_readName hn
    have before := length_skipJsonBlanks_le r₁
    have progress := nested.shortens hv
    have after := length_lt_of_skipJsonBlanks hr
    have further := ih hm
    omega
  | case5 => contradiction

/-- Reading an array behind its opening bracket takes at least the closing one. -/
theorem length_lt_of_readArray (nested : ValueReader) {text rest : List Char} {value : Json}
    (h : readArray nested text = some (value, rest)) : rest.length < text.length := by
  unfold readArray at h
  split at h
  · next r hr =>
    obtain ⟨-, rfl⟩ := Prod.mk.inj (Option.some.inj h)
    exact length_lt_of_skipJsonBlanks hr
  · obtain ⟨⟨vs, r⟩, hv, he⟩ := Option.map_eq_some_iff.1 h
    obtain ⟨-, rfl⟩ := Prod.mk.inj he
    exact length_lt_of_readElements nested hv

/-- Reading an object behind its opening brace takes at least the closing one. -/
theorem length_lt_of_readObject (nested : ValueReader) {text rest : List Char} {value : Json}
    (h : readObject nested text = some (value, rest)) : rest.length < text.length := by
  unfold readObject at h
  split at h
  · next r hr =>
    obtain ⟨-, rfl⟩ := Prod.mk.inj (Option.some.inj h)
    exact length_lt_of_skipJsonBlanks hr
  · obtain ⟨⟨ms, r⟩, hv, he⟩ := Option.map_eq_some_iff.1 h
    obtain ⟨-, rfl⟩ := Prod.mk.inj he
    exact length_lt_of_readMembers nested hv

/-- The reader of values with at most `levels` arrays and objects nested in one another. -/
def valueReader : (levels : Nat) → ValueReader
  | 0 => ⟨readScalar, length_lt_of_readScalar⟩
  | levels + 1 =>
    { read := fun text =>
        match text with
        | '[' :: rest => readArray (valueReader levels) rest
        | '\x7b' :: rest => readObject (valueReader levels) rest
        | text => readScalar text
      shortens := by
        intro text value rest h
        split at h
        · exact Nat.lt_succ_of_lt (length_lt_of_readArray _ h)
        · exact Nat.lt_succ_of_lt (length_lt_of_readObject _ h)
        · exact length_lt_of_readScalar h }

/-- How many arrays and objects may be nested in one another. -/
def jsonDepthLimit : Nat :=
  127

/-- Reads a text as one document. -/
def Json.read? (text : String) : Option Json :=
  match (valueReader jsonDepthLimit).read (skipJsonBlanks text.toList) with
  | some (value, rest) => if (skipJsonBlanks rest).isEmpty then some value else none
  | none => none

end JsonSelect
