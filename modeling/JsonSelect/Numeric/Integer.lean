/-!
# Decimal text of whole numbers

Indexes, slice parts and whole-number literals are signed 64-bit integers written in base ten.
A natural number is written without leading zeros; reading is more generous and accepts any
non-empty run of digits. An integer may carry one leading `-`; a `+`, a blank or an underscore
is never part of it.

The main statements are `readInt64_eq_some_iff`, which tells what is read, and
`readInt64_integerText`: what is written is read back.
-/

namespace JsonSelect

/-! ### Natural numbers -/

/-- The decimal digits of a natural number, without leading zeros. -/
def decimalDigits (n : Nat) : List Char :=
  Nat.toDigits 10 n

/-- The number that a run of decimal digits denotes; leading zeros do not change it. -/
def digitsValue (digits : List Char) : Nat :=
  Nat.ofDigitChars 10 digits 0

/-- Whether a text is a non-empty run of decimal digits. -/
def isDigitRun (text : List Char) : Bool :=
  !text.isEmpty && text.all Char.isDigit

/-- A run of digits is not empty and has digits only. -/
theorem isDigitRun_eq_true_iff {text : List Char} :
    isDigitRun text = true ↔ text ≠ [] ∧ ∀ c ∈ text, c.isDigit = true := by
  simp [isDigitRun]

/-- The digits of a number denote that number. -/
@[simp] theorem digitsValue_decimalDigits (n : Nat) : digitsValue (decimalDigits n) = n :=
  Nat.ofDigitChars_ten_toDigits

/-- Every number has at least one digit. -/
theorem decimalDigits_ne_nil (n : Nat) : decimalDigits n ≠ [] :=
  Nat.toDigits_ne_nil

/-- The digits of a number are digits. -/
theorem isDigit_of_mem_decimalDigits {n : Nat} {c : Char} (h : c ∈ decimalDigits n) :
    c.isDigit = true :=
  Nat.isDigit_of_mem_toDigits (by decide) (by decide) h

/-- The digits of a number are a run of digits. -/
@[simp] theorem isDigitRun_decimalDigits (n : Nat) : isDigitRun (decimalDigits n) = true :=
  isDigitRun_eq_true_iff.2 ⟨decimalDigits_ne_nil n, fun _ => isDigit_of_mem_decimalDigits⟩

/-! ### Signed 64-bit integers -/

/-- The integer as a signed 64-bit word, if it lies in the range of such words. -/
def int64? (n : Int) : Option Int64 :=
  if (Int64.ofInt n).toInt = n then some (Int64.ofInt n) else none

/-- The text of an integer: its digits, after a `-` when it is negative. -/
def integerText (n : Int) : List Char :=
  if n < 0 then '-' :: decimalDigits n.natAbs else decimalDigits n.natAbs

/-- The text of an index. -/
def indexText (index : Int64) : List Char :=
  integerText index.toInt

/-- Reads a signed 64-bit integer: an optional `-` and a run of digits, within the range.
Both `-0` and leading zeros are accepted. -/
def readInt64 : List Char → Option Int64
  | '-' :: digits => if isDigitRun digits then int64? (-(digitsValue digits : Int)) else none
  | digits => if isDigitRun digits then int64? (digitsValue digits) else none

/-- The integer of a word is found as that word. -/
@[simp] theorem int64?_toInt (n : Int64) : int64? n.toInt = some n := by
  rw [int64?, Int64.ofInt_toInt, if_pos rfl]

/-- A word found for an integer has that integer as its value. -/
theorem toInt_of_int64? {n : Int} {word : Int64} (h : int64? n = some word) : word.toInt = n := by
  unfold int64? at h
  split at h
  · next value =>
    obtain rfl := Option.some.inj h
    exact value
  · simp at h

/-- A word is found for an integer exactly if the integer is its value. -/
theorem int64?_eq_some_iff {n : Int} {word : Int64} : int64? n = some word ↔ word.toInt = n :=
  ⟨toInt_of_int64?, fun h => h ▸ int64?_toInt word⟩

/-- An integer that is no word lies below all words or above all of them. -/
theorem forall_lt_or_forall_lt_of_int64?_eq_none {n : Int} (h : int64? n = none) :
    (∀ word : Int64, n < word.toInt) ∨ ∀ word : Int64, word.toInt < n := by
  unfold int64? at h
  split at h
  · contradiction
  · next hvalue =>
    rw [Int64.toInt_ofInt, Int64.size] at hvalue
    by_cases hneg : n < 0
    · refine Or.inl fun word => ?_
      have hlow := word.le_toInt
      exact Int.not_le.mp fun hword => hvalue (Int.bmod_eq_of_le (by omega) (by omega))
    · refine Or.inr fun word => ?_
      have hhigh := word.toInt_lt
      exact Int.not_le.mp fun hword => hvalue (Int.bmod_eq_of_le (by omega) (by omega))

/-- Whether a text is a numeral of a 64-bit integer: a run of digits with the absolute value of
the integer, after a `-` if it is to be negative. -/
def IsNumeral (text : List Char) (n : Int64) : Prop :=
  ∃ digits, isDigitRun digits = true ∧
    (text = digits ∧ n.toInt = digitsValue digits ∨
      text = '-' :: digits ∧ n.toInt = -(digitsValue digits : Int))

/-- A run of digits never starts with a minus sign. -/
theorem isDigitRun_minus_cons (rest : List Char) : isDigitRun ('-' :: rest) = false := by
  simp [isDigitRun, show '-'.isDigit = false by decide]

/-- What is read are the numerals, with the integers they stand for. -/
theorem readInt64_eq_some_iff {text : List Char} {n : Int64} :
    readInt64 text = some n ↔ IsNumeral text n := by
  unfold readInt64
  split
  · next digits =>
    constructor
    · intro h
      split at h
      · next hdigits => exact ⟨digits, hdigits, Or.inr ⟨rfl, toInt_of_int64? h⟩⟩
      · contradiction
    · rintro ⟨run, hrun, ⟨rfl, -⟩ | ⟨htext, hvalue⟩⟩
      · rw [isDigitRun_minus_cons] at hrun
        contradiction
      · obtain rfl := (List.cons.inj htext).2
        rw [if_pos hrun, int64?_eq_some_iff, hvalue]
  · next hminus =>
    constructor
    · intro h
      split at h
      · next hdigits => exact ⟨text, hdigits, Or.inl ⟨rfl, toInt_of_int64? h⟩⟩
      · contradiction
    · rintro ⟨run, hrun, ⟨rfl, hvalue⟩ | ⟨rfl, -⟩⟩
      · rw [if_pos hrun, int64?_eq_some_iff, hvalue]
      · exact absurd rfl (hminus run)

/-- The digits of a number never start with a minus sign. -/
theorem decimalDigits_ne_minus_cons (n : Nat) (rest : List Char) :
    decimalDigits n ≠ '-' :: rest := by
  intro h
  have digit : '-'.isDigit = true :=
    isDigit_of_mem_decimalDigits (h ▸ List.mem_cons_self : '-' ∈ decimalDigits n)
  exact absurd digit (by decide)

/-- The digits of a natural number are read as the word for it, if there is one. -/
theorem readInt64_decimalDigits (n : Nat) : readInt64 (decimalDigits n) = int64? n := by
  unfold readInt64
  split
  · next h => exact absurd h (decimalDigits_ne_minus_cons _ _)
  · rw [if_pos (isDigitRun_decimalDigits n), digitsValue_decimalDigits]

/-- Writing a 64-bit integer and reading the text gives the integer back. -/
theorem readInt64_integerText (n : Int64) : readInt64 (integerText n.toInt) = some n := by
  unfold integerText
  split
  · next h =>
    have value : -(n.toInt.natAbs : Int) = n.toInt := by omega
    rw [readInt64, if_pos (isDigitRun_decimalDigits _), digitsValue_decimalDigits, value,
      int64?_toInt]
  · next h =>
    have value : (n.toInt.natAbs : Int) = n.toInt := by omega
    rw [readInt64_decimalDigits, value, int64?_toInt]

end JsonSelect
