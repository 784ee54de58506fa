/-!
# Quoted text

A text in quotes stands between two `'`. A quote or a backslash inside it is written with a
backslash before it; every other character stands for itself, and nothing else may follow a
backslash.

The main statements say that writing and reading are inverse to each other:
`readQuoted_quoted_append` for what is written, whatever follows it, and `eq_of_readQuoted` for
what is read.
-/

namespace JsonSelect

/-- How a character is written between quotes. -/
def quoteChar (c : Char) : List Char :=
  if c = '\\' ∨ c = '\'' then ['\\', c] else [c]

/-- A text between quotes. -/
def quoted (text : List Char) : List Char :=
  '\'' :: text.flatMap quoteChar ++ ['\'']

/-- Why a quoted text cannot be read. -/
inductive QuoteFault where
  /-- The characters end before the closing quote. -/
  | unclosed
  /-- A character that cannot follow a backslash; `rest` starts with it. -/
  | unknownEscape (c : Char) (rest : List Char)
  deriving DecidableEq

/-- Reads a quoted text from the character after its opening quote, and returns it with the
characters after its closing quote. -/
def readQuoted : List Char → Except QuoteFault (List Char × List Char)
  | [] => .error .unclosed
  | '\'' :: rest => .ok ([], rest)
  | ['\\'] => .error .unclosed
  | '\\' :: c :: rest =>
    if c = '\\' ∨ c = '\'' then (readQuoted rest).map fun (text, rest) => (c :: text, rest)
    else .error (.unknownEscape c (c :: rest))
  | c :: rest => (readQuoted rest).map fun (text, rest) => (c :: text, rest)

/-! ### Writing, then reading -/

/-- A text is read back from its escaped characters and the closing quote. -/
theorem readQuoted_flatMap_quoteChar_append (text rest : List Char) :
    readQuoted (text.flatMap quoteChar ++ '\'' :: rest) = .ok (text, rest) := by
  induction text with
  | nil => rfl
  | cons c text ih =>
    by_cases h : c = '\\' ∨ c = '\''
    · simp [quoteChar, h, readQuoted, ih, Except.map]
    · have hc := not_or.1 h
      rw [List.flatMap_cons, quoteChar, if_neg h, List.singleton_append, List.cons_append,
        readQuoted, ih]
      · rfl
      all_goals simp_all

/-- What is written is read back, whatever follows the closing quote. -/
theorem readQuoted_quoted_append (text rest : List Char) :
    readQuoted ((quoted text ++ rest).drop 1) = .ok (text, rest) := by
  simp [quoted, readQuoted_flatMap_quoteChar_append]

/-! ### Reading, then writing -/

/-- The characters read are the written form of the text that was read. -/
theorem eq_of_readQuoted {input text rest : List Char}
    (h : readQuoted input = .ok (text, rest)) : '\'' :: input = quoted text ++ rest := by
  fun_induction readQuoted input generalizing text rest with
  | case1 => simp at h
  | case2 r => simp_all [quoted]
  | case3 => simp at h
  | case4 c r hc ih =>
    cases hr : readQuoted r with
    | error e => simp [hr, Except.map] at h
    | ok result =>
      obtain ⟨t, r'⟩ := result
      obtain ⟨rfl, rfl⟩ : c :: t = text ∧ r' = rest := by simpa [hr, Except.map] using h
      have := ih hr
      simp_all [quoted, quoteChar]
  | case5 => simp at h
  | case6 c r h₁ h₂ h₃ ih =>
    cases hr : readQuoted r with
    | error e => simp [hr, Except.map] at h
    | ok result =>
      obtain ⟨t, r'⟩ := result
      obtain ⟨rfl, rfl⟩ : c :: t = text ∧ r' = rest := by simpa [hr, Except.map] using h
      have := ih hr
      have hc : ¬(c = '\\' ∨ c = '\'') := by
        rintro (rfl | rfl)
        · cases r <;> simp_all
        · simp_all
      simp_all [quoted, quoteChar]

/-- Reading a quoted text takes at least the closing quote. -/
theorem length_lt_of_readQuoted {input text rest : List Char}
    (h : readQuoted input = .ok (text, rest)) : rest.length < input.length := by
  have := congrArg List.length (eq_of_readQuoted h)
  simp [quoted] at this
  omega

end JsonSelect
