import JsonSelect.Literal
import JsonSelect.Selector.Operator
import JsonSelect.Grammar.Reading

/-!
# Reading operators and literals

After its path, a condition may have an operator and a literal. A literal is a quoted text, one of
the words `true`, `false` and `null`, or a number.

A number starts with a digit or a minus sign and ends before the next space or closing parenthesis.
With a point or an exponent letter in it, it is a floating-point numeral and has to be finite;
otherwise it is a 64-bit whole number.
-/

namespace JsonSelect

/-! ### Operators -/

/-- Reads an operator. At the last character of an expression the filter is still open, whatever
that character is. -/
def readOperator : List Char → Reading Operator
  | [] => .error ⟨.openFilter, []⟩
  | [c] => .error ⟨.openFilter, [c]⟩
  | '=' :: '=' :: rest => .ok (.equal, rest)
  | '!' :: '=' :: rest => .ok (.unequal, rest)
  | '<' :: '>' :: rest => .ok (.unequal, rest)
  | '<' :: '=' :: rest => .ok (.atMost, rest)
  | '<' :: rest => .ok (.less, rest)
  | '>' :: '=' :: rest => .ok (.atLeast, rest)
  | '>' :: rest => .ok (.greater, rest)
  | text => .error ⟨.invalidOperator, text⟩

/-- Reading an operator takes at least one character. -/
theorem length_lt_of_readOperator {text rest : List Char} {operator : Operator}
    (h : readOperator text = .ok (operator, rest)) : rest.length < text.length := by
  unfold readOperator at h
  split at h
  case h_1 | h_2 | h_10 => contradiction
  all_goals
    obtain ⟨-, rfl⟩ := Prod.mk.inj (Except.ok.inj h)
    simp only [List.length_cons]
    omega

/-! ### Literals -/

/-- Whether a character belongs to a number that has been started. -/
def isNumberChar (c : Char) : Bool :=
  c != ' ' && c != ')'

/-- Whether a number is written as a floating-point one. -/
def isFloatText (word : List Char) : Bool :=
  word.any fun c => c = '.' || c = 'e' || c = 'E'

/-- The literal that a number denotes. -/
def numberLiteral? (word : List Char) : Option Literal :=
  if isFloatText word then
    match readBinary64 word with
    | some (.finite x) => some (.float (.finite x))
    | _ => none
  else (readInt64 word).map .integer

/-- Reads a literal. -/
def readLiteral (text : List Char) : Reading Literal :=
  match text with
  | '\'' :: body =>
    match readQuoted body with
    | .ok (value, rest) => .ok (.string (String.ofList value), rest)
    | .error .unclosed => .error ⟨.invalidLiteral, []⟩
    | .error (.unknownEscape c rest) => .error ⟨.unknownEscape c, rest⟩
  | 't' :: 'r' :: 'u' :: 'e' :: rest => .ok (.boolean true, rest)
  | 'f' :: 'a' :: 'l' :: 's' :: 'e' :: rest => .ok (.boolean false, rest)
  | 'n' :: 'u' :: 'l' :: 'l' :: rest => .ok (.null, rest)
  | c :: _ =>
    if c.isDigit || c = '-' then
      match numberLiteral? (text.takeWhile isNumberChar), text.dropWhile isNumberChar with
      | some literal, c :: rest => .ok (literal, c :: rest)
      | _, _ => .error ⟨.invalidLiteral, text⟩
    else .error ⟨.invalidLiteral, text⟩
  | [] => .error ⟨.invalidLiteral, []⟩

/-- Reading a literal leaves no more than there was. -/
theorem length_le_of_readLiteral {text rest : List Char} {literal : Literal}
    (h : readLiteral text = .ok (literal, rest)) : rest.length ≤ text.length := by
  unfold readLiteral at h
  split at h
  · next body =>
    split at h
    · next value r hr =>
      have shorter := length_lt_of_readQuoted hr
      obtain ⟨-, rfl⟩ := Prod.mk.inj (Except.ok.inj h)
      simp only [List.length_cons]
      omega
    · contradiction
    · contradiction
  · obtain ⟨-, rfl⟩ := Prod.mk.inj (Except.ok.inj h)
    simp only [List.length_cons]
    omega
  · obtain ⟨-, rfl⟩ := Prod.mk.inj (Except.ok.inj h)
    simp only [List.length_cons]
    omega
  · obtain ⟨-, rfl⟩ := Prod.mk.inj (Except.ok.inj h)
    simp only [List.length_cons]
    omega
  · next c tail _ _ _ _ =>
    split at h
    · split at h
      · next l e r _ he =>
        obtain ⟨-, rfl⟩ := Prod.mk.inj (Except.ok.inj h)
        exact he ▸ (List.dropWhile_sublist (p := isNumberChar) (l := c :: tail)).length_le
      · contradiction
    · contradiction
  · contradiction

end JsonSelect
