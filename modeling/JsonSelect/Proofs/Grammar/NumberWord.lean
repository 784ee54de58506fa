import JsonSelect.Proofs.Grammar.ArrayIndexer
import JsonSelect.Proofs.Numeric.CorrectRounding

/-!
# The grammar of numbers in conditions

A number in a condition runs to the next space or closing parenthesis.  As a whole it is a numeral
of a 64-bit integer, or a floating-point numeral: an optional minus sign, digits with at most one
point among them, and an optional power of ten, where the point or the power has to be there
(`IsNumberWord`).  A floating-point numeral stands for the number that its value is rounded to
correctly, which has to be finite.

Main statement: the numbers that are read are those of the grammar, with the literals they stand
for, and everything else is refused where it starts (`readLiteral_eq_ok_iff_isNumberWord`).
Infinities and what is not a number have texts of their own that a floating-point reader accepts,
but in none of them is there a point or an exponent letter.
-/

namespace JsonSelect

/-! ### The grammar -/

/-- Digits with at most one point among them, on at least one side of which there are digits, and
the value of that. -/
inductive IsMantissa : List Char → ℚ → Prop where
  | whole {digits : List Char} (hrun : isDigitRun digits = true) :
    IsMantissa digits (digitsValue digits)
  | point {whole fraction : List Char} (hwhole : ∀ c ∈ whole, c.isDigit = true)
    (hfraction : ∀ c ∈ fraction, c.isDigit = true) (hne : whole ≠ [] ∨ fraction ≠ []) :
    IsMantissa (whole ++ '.' :: fraction)
      (digitsValue whole + digitsValue fraction / 10 ^ fraction.length)

/-- An exponent letter with a whole number, signed or not, or nothing at all. -/
inductive IsPower : List Char → Int → Prop where
  | none : IsPower [] 0
  | unsigned {letter : Char} (hletter : letter = 'e' ∨ letter = 'E') {digits : List Char}
    (hrun : isDigitRun digits = true) : IsPower (letter :: digits) (digitsValue digits)
  | plus {letter : Char} (hletter : letter = 'e' ∨ letter = 'E') {digits : List Char}
    (hrun : isDigitRun digits = true) : IsPower (letter :: '+' :: digits) (digitsValue digits)
  | minus {letter : Char} (hletter : letter = 'e' ∨ letter = 'E') {digits : List Char}
    (hrun : isDigitRun digits = true) : IsPower (letter :: '-' :: digits) (-(digitsValue digits))

/-- A number of a condition with the literal that it stands for. -/
inductive IsNumberWord : List Char → Literal → Prop where
  | integer {word : List Char} {n : Int64} (hnumeral : IsNumeral word n) :
    IsNumberWord word (.integer n)
  | float {mantissa power : List Char} {m : ℚ} {e : Int} {x : FiniteFloat}
    (hmantissa : IsMantissa mantissa m) (hpower : IsPower power e)
    (hfloat : '.' ∈ mantissa ∨ power ≠ []) (hround : IsNearestCode (m * 10 ^ e) x.code) :
    IsNumberWord (signed x.negative (mantissa ++ power)) (.float (.finite x))

/-! ### Digits -/

/-- Digits behind others shift the value of those to the left. -/
theorem digitsValue_append (front digits : List Char) :
    digitsValue (front ++ digits) =
      digitsValue front * 10 ^ digits.length + digitsValue digits := by
  have hstart : ∀ start, Nat.ofDigitChars 10 digits start =
      start * 10 ^ digits.length + Nat.ofDigitChars 10 digits 0 := by
    induction digits with
    | nil => simp
    | cons c digits ih =>
      intro start
      rw [Nat.ofDigitChars_cons, Nat.ofDigitChars_cons, ih, ih (10 * 0 + _), List.length_cons]
      ring
  rw [digitsValue, Nat.ofDigitChars_append]
  exact hstart _

/-- The decimal that is made of digits before and after the point has the value that these say. -/
theorem value_ofDigits (whole fraction : List Char) (e : Int) :
    (Decimal.ofDigits whole fraction e).value =
      (digitsValue whole + digitsValue fraction / 10 ^ fraction.length) * 10 ^ e := by
  have hten : (10 : ℚ) ^ fraction.length ≠ 0 := by positivity
  rw [Decimal.ofDigits, Decimal.value, digitsValue_append, zpow_sub₀ (by norm_num), zpow_natCast]
  push_cast
  field_simp

/-- No digit is a point or an exponent letter. -/
theorem ne_of_isDigit {c : Char} (h : c.isDigit = true) :
    c ≠ '.' ∧ c ≠ 'e' ∧ c ≠ 'E' ∧ c ≠ '-' ∧ c ≠ '+' := by
  refine ⟨?_, ?_, ?_, ?_, ?_⟩
  all_goals
    rintro rfl
    exact absurd h (by decide)

/-! ### Reading numerals -/

/-- What follows the digits of a numeral starts with no digit and no point. -/
theorem IsPower.head?_eq {power : List Char} {e : Int} (h : IsPower power e) :
    ∀ c ∈ power.head?, c = 'e' ∨ c = 'E' := by
  cases h with
  | none => rintro _ ⟨⟩
  | unsigned hletter =>
    rintro _ ⟨⟩
    exact hletter
  | plus hletter =>
    rintro _ ⟨⟩
    exact hletter
  | minus hletter =>
    rintro _ ⟨⟩
    exact hletter

/-- An exponent is read exactly from its texts. -/
theorem readExponent_eq_some_iff {power : List Char} {e : Int} :
    readExponent power = some e ↔ IsPower power e := by
  constructor
  · intro h
    unfold readExponent at h
    split at h
    · obtain rfl := Option.some.inj h
      exact .none
    · next letter rest =>
      split at h
      · next hletter =>
        unfold readSignedDigits at h
        split at h
        all_goals
          split at h
          · next hrun =>
            obtain rfl := Option.some.inj h
            first
              | exact .minus hletter hrun
              | exact .plus hletter hrun
              | exact .unsigned hletter hrun
          · contradiction
      · contradiction
  · intro h
    cases h with
    | none => rfl
    | unsigned hletter hrun =>
      rw [readExponent, if_pos hletter]
      unfold readSignedDigits
      -- a run of digits has no sign
      split
      · exact absurd hrun (by simp [isDigitRun_minus_cons])
      · exact absurd hrun (by simp [isDigitRun, show '+'.isDigit = false by decide])
      · rw [if_pos hrun]
    | plus hletter hrun =>
      rw [readExponent, if_pos hletter, readSignedDigits, if_pos hrun]
    | minus hletter hrun =>
      rw [readExponent, if_pos hletter, readSignedDigits, if_pos hrun]

/-- What is read as a numeral is a mantissa with a power of ten. -/
theorem exists_of_readNumeral {text : List Char} {d : Decimal} (h : readNumeral text = some d) :
    ∃ mantissa power m e, text = mantissa ++ power ∧ IsMantissa mantissa m ∧ IsPower power e ∧
      d.value = m * 10 ^ e := by
  have hdigits : ∀ text : List Char, ∀ c ∈ text.takeWhile Char.isDigit, c.isDigit = true :=
    fun _ => List.all_eq_true.mp List.all_takeWhile
  have htext : text.takeWhile Char.isDigit ++ text.dropWhile Char.isDigit = text :=
    List.takeWhile_append_dropWhile
  unfold readNumeral at h
  dsimp only at h
  generalize text.dropWhile Char.isDigit = behind at h htext
  unfold splitFraction at h
  split at h
  · next rest =>
    split at h
    · contradiction
    · next hempty =>
      obtain ⟨e, hpower, rfl⟩ := Option.map_eq_some_iff.mp h
      refine ⟨text.takeWhile Char.isDigit ++ '.' :: rest.takeWhile Char.isDigit,
        rest.dropWhile Char.isDigit, _, e, ?_, .point (hdigits text) (hdigits rest) ?_,
        readExponent_eq_some_iff.mp hpower, value_ofDigits _ _ e⟩
      · rw [List.append_assoc, List.cons_append, List.takeWhile_append_dropWhile, htext]
      · simpa [imp_iff_not_or] using hempty
  · split at h
    · contradiction
    · next hempty =>
      obtain ⟨e, hpower, rfl⟩ := Option.map_eq_some_iff.mp h
      refine ⟨text.takeWhile Char.isDigit, behind, _, e, htext.symm, .whole ?_,
        readExponent_eq_some_iff.mp hpower, ?_⟩
      · rw [isDigitRun_eq_true_iff]
        exact ⟨by simpa using hempty, hdigits text⟩
      · rw [value_ofDigits]
        simp [digitsValue]

/-- A mantissa with a power of ten is read as a numeral. -/
theorem exists_readNumeral_eq_some {mantissa power : List Char} {m : ℚ} {e : Int}
    (hmantissa : IsMantissa mantissa m) (hpower : IsPower power e) :
    ∃ d, readNumeral (mantissa ++ power) = some d ∧ d.value = m * 10 ^ e := by
  have hread := readExponent_eq_some_iff.mpr hpower
  have hdigit : ∀ c ∈ power.head?, c.isDigit = false := by
    intro c hc
    rcases hpower.head?_eq c hc with rfl | rfl <;> decide
  cases hmantissa with
  | whole hrun =>
    obtain ⟨hne, hdigits⟩ := isDigitRun_eq_true_iff.mp hrun
    have hsplit : splitFraction power = ([], power) := by
      unfold splitFraction
      split
      · exact absurd (hpower.head?_eq _ rfl) (by decide)
      · rfl
    refine ⟨.ofDigits mantissa [] e, ?_, ?_⟩
    · simp [readNumeral, takeWhile_append_of_head? hdigits hdigit,
        dropWhile_append_of_head? hdigits hdigit, hsplit, hne, hread]
    · rw [value_ofDigits]
      simp [digitsValue]
  | @point whole fraction hwhole hfraction hne =>
    have hpoint : ∀ c ∈ ('.' :: (fraction ++ power)).head?, c.isDigit = false := by
      rintro _ ⟨⟩
      decide
    have hempty : (whole.isEmpty && fraction.isEmpty) = false := by
      simpa [imp_iff_not_or] using hne
    refine ⟨.ofDigits whole fraction e, ?_, value_ofDigits whole fraction e⟩
    rw [List.append_assoc, List.cons_append, readNumeral]
    simp only [takeWhile_append_of_head? hwhole hpoint, dropWhile_append_of_head? hwhole hpoint,
      splitFraction, takeWhile_append_of_head? hfraction hdigit,
      dropWhile_append_of_head? hfraction hdigit, hempty, Bool.false_eq_true, if_false, hread,
      Option.map_some]

/-! ### The two kinds of numbers -/

/-- A number is a float if there is a point or the letter of an exponent in it. -/
theorem isFloatText_eq_true_iff {text : List Char} :
    isFloatText text = true ↔ '.' ∈ text ∨ 'e' ∈ text ∨ 'E' ∈ text := by
  simp only [isFloatText, List.any_eq_true, Bool.or_eq_true, decide_eq_true_eq, or_assoc]
  constructor
  · rintro ⟨c, hc, rfl | rfl | rfl⟩
    · exact Or.inl hc
    · exact Or.inr (Or.inl hc)
    · exact Or.inr (Or.inr hc)
  · rintro (hc | hc | hc)
    · exact ⟨_, hc, Or.inl rfl⟩
    · exact ⟨_, hc, Or.inr (Or.inl rfl)⟩
    · exact ⟨_, hc, Or.inr (Or.inr rfl)⟩

/-- Digits and minus signs are not taken for a floating-point number. -/
theorem isFloatText_eq_false {text : List Char} (h : ∀ c ∈ text, isIndexChar c = true) :
    isFloatText text = false := by
  rw [Bool.eq_false_iff]
  intro hfloat
  rcases isFloatText_eq_true_iff.mp hfloat with hc | hc | hc
  all_goals exact absurd (h _ hc) (by decide)

/-- A mantissa consists of digits and a point. -/
theorem IsMantissa.isDigit_or_eq_point {mantissa : List Char} {m : ℚ} (h : IsMantissa mantissa m) :
    ∀ c ∈ mantissa, c.isDigit = true ∨ c = '.' := by
  intro c hc
  cases h with
  | whole hrun => exact Or.inl ((isDigitRun_eq_true_iff.mp hrun).2 c hc)
  | point hwhole hfraction =>
    rcases List.mem_append.mp hc with hc | hc
    · exact Or.inl (hwhole c hc)
    · rcases List.mem_cons.mp hc with rfl | hc
      · exact Or.inr rfl
      · exact Or.inl (hfraction c hc)

/-- A mantissa is not empty. -/
theorem IsMantissa.ne_nil {mantissa : List Char} {m : ℚ} (h : IsMantissa mantissa m) :
    mantissa ≠ [] := by
  cases h with
  | whole hrun => exact (isDigitRun_eq_true_iff.mp hrun).1
  | point => simp

/-- A mantissa with a power of ten is floating point if it has a point or a power. -/
theorem IsMantissa.isFloatText_append_iff {mantissa power : List Char} {m : ℚ} {e : Int}
    (hmantissa : IsMantissa mantissa m) (hpower : IsPower power e) :
    isFloatText (mantissa ++ power) = true ↔ '.' ∈ mantissa ∨ power ≠ [] := by
  rw [isFloatText_eq_true_iff]
  constructor
  · intro h
    by_cases hnil : power = []
    · left
      rw [hnil, List.append_nil] at h
      rcases h with hc | hc | hc
      · exact hc
      · exact absurd (hmantissa.isDigit_or_eq_point _ hc) (by decide)
      · exact absurd (hmantissa.isDigit_or_eq_point _ hc) (by decide)
    · exact Or.inr hnil
  · rintro (hpoint | hne)
    · exact Or.inl (List.mem_append_left _ hpoint)
    · obtain ⟨letter, rest, rfl⟩ := List.exists_cons_of_ne_nil hne
      right
      rcases hpower.head?_eq _ rfl with rfl | rfl <;> simp

/-! ### Reading floating-point numbers -/

/-- Infinities and what is not a number are written without a point and without an exponent
letter, so that a text with one of these is a numeral or nothing. -/
theorem readMagnitude_of_isFloatText {text : List Char} (h : isFloatText text = true)
    (negative : Bool) :
    readMagnitude negative text = (readNumeral text).map (Decimal.toBinary64 negative) := by
  have hlower : '.' ∈ text.map Char.toLower ∨ 'e' ∈ text.map Char.toLower := by
    rcases isFloatText_eq_true_iff.mp h with hc | hc | hc
    · exact Or.inl (List.mem_map_of_mem (f := Char.toLower) hc)
    · exact Or.inr (List.mem_map_of_mem (f := Char.toLower) hc)
    · exact Or.inr (List.mem_map_of_mem (f := Char.toLower) hc)
  have hword : ∀ word : String, '.' ∉ word.toList → 'e' ∉ word.toList →
      String.ofList (text.map Char.toLower) ≠ word := by
    rintro _ hpoint hletter rfl
    rw [String.toList_ofList] at hpoint hletter
    exact hlower.elim hpoint hletter
  rw [readMagnitude, if_neg, if_neg]
  · exact hword "nan" (by decide) (by decide)
  · rintro (heq | heq)
    · exact hword "inf" (by decide) (by decide) heq
    · exact hword "infinity" (by decide) (by decide) heq

/-- A decimal is read as a finite number if its nearest code is the one of that number. -/
theorem Decimal.toBinary64_eq_finite_iff {d : Decimal} {negative : Bool} {x : FiniteFloat} :
    d.toBinary64 negative = .finite x ↔ negative = x.negative ∧ IsNearestCode d.value x.code := by
  rw [← code_eq_iff x.code_lt, toBinary64, Binary64.ofCode]
  constructor
  · intro h
    split at h
    · obtain rfl := Binary64.finite.inj h
      exact ⟨rfl, rfl⟩
    · contradiction
  · rintro ⟨rfl, hcode⟩
    rw [dif_pos (hcode ▸ x.code_lt)]
    simp only [hcode]

/-- A finite float is read exactly from a mantissa with an exponent that it is nearest to. -/
theorem readMagnitude_eq_finite_iff {text : List Char} (h : isFloatText text = true)
    {negative : Bool} {x : FiniteFloat} :
    readMagnitude negative text = some (.finite x) ↔
      negative = x.negative ∧ ∃ mantissa power m e, text = mantissa ++ power ∧
        IsMantissa mantissa m ∧ IsPower power e ∧ IsNearestCode (m * 10 ^ e) x.code := by
  rw [readMagnitude_of_isFloatText h, Option.map_eq_some_iff]
  constructor
  · rintro ⟨d, hread, hfinite⟩
    obtain ⟨hnegative, hround⟩ := Decimal.toBinary64_eq_finite_iff.mp hfinite
    obtain ⟨mantissa, power, m, e, htext, hmantissa, hpower, hvalue⟩ := exists_of_readNumeral hread
    exact ⟨hnegative, mantissa, power, m, e, htext, hmantissa, hpower, hvalue ▸ hround⟩
  · rintro ⟨hnegative, mantissa, power, m, e, rfl, hmantissa, hpower, hround⟩
    obtain ⟨d, hread, hvalue⟩ := exists_readNumeral_eq_some hmantissa hpower
    exact ⟨d, hread, Decimal.toBinary64_eq_finite_iff.mpr ⟨hnegative, hvalue ▸ hround⟩⟩

/-- A number starts with a sign or without one. -/
theorem readBinary64_signed {text : List Char} (h : ∀ c ∈ text.head?, c ≠ '-' ∧ c ≠ '+')
    (negative : Bool) : readBinary64 (signed negative text) = readMagnitude negative text := by
  cases negative with
  | true => rfl
  | false =>
    unfold signed readBinary64
    simp only [Bool.false_eq_true, if_false]
    split
    · exact absurd rfl (h _ rfl).1
    · exact absurd rfl (h _ rfl).2
    · rfl

/-- A word without a plus sign is a text with an optional minus sign in front. -/
theorem exists_signed_eq {word : List Char} (hplus : '+' ∉ word.head?) :
    ∃ negative text, word = signed negative text ∧
      readBinary64 word = readMagnitude negative text := by
  unfold readBinary64
  split
  · next rest => exact ⟨true, rest, rfl, rfl⟩
  · exact absurd rfl hplus
  · exact ⟨false, word, rfl, rfl⟩

/-- The sign of a number does not make it a float. -/
theorem isFloatText_signed (negative : Bool) (text : List Char) :
    isFloatText (signed negative text) = isFloatText text := by
  cases negative with
  | false => rfl
  | true => simp [isFloatText, signed]

/-! ### Reading numbers -/

/-- A number is a literal if it is a word of the grammar, and which literal that is. -/
theorem numberLiteral?_eq_some_iff {word : List Char} (hplus : '+' ∉ word.head?)
    {literal : Literal} : numberLiteral? word = some literal ↔ IsNumberWord word literal := by
  constructor
  · intro h
    unfold numberLiteral? at h
    split at h
    · next hfloat =>
      split at h
      · next x hread =>
        obtain rfl := Option.some.inj h
        obtain ⟨negative, text, rfl, hmagnitude⟩ := exists_signed_eq hplus
        rw [isFloatText_signed] at hfloat
        rw [hmagnitude, readMagnitude_eq_finite_iff hfloat] at hread
        obtain ⟨rfl, mantissa, power, m, e, rfl, hmantissa, hpower, hround⟩ := hread
        exact .float hmantissa hpower ((hmantissa.isFloatText_append_iff hpower).mp hfloat) hround
      · contradiction
    · obtain ⟨n, hread, rfl⟩ := Option.map_eq_some_iff.mp h
      exact .integer (readInt64_eq_some_iff.mp hread)
  · intro h
    cases h with
    | integer hnumeral =>
      simp [numberLiteral?, isFloatText_eq_false hnumeral.forall_isIndexChar.2,
        readInt64_eq_some_iff.mpr hnumeral]
    | @float mantissa power m e x hmantissa hpower hpoint hround =>
      have hfloat := (hmantissa.isFloatText_append_iff hpower).mpr hpoint
      have hunsigned : ∀ c ∈ (mantissa ++ power).head?, c ≠ '-' ∧ c ≠ '+' := by
        obtain ⟨d, more, rfl⟩ := List.exists_cons_of_ne_nil hmantissa.ne_nil
        rintro _ ⟨⟩
        rcases hmantissa.isDigit_or_eq_point d List.mem_cons_self with hdigit | rfl
        · exact (ne_of_isDigit hdigit).2.2.2
        · decide
      have hread := (readMagnitude_eq_finite_iff hfloat).mpr
        ⟨rfl, mantissa, power, m, e, rfl, hmantissa, hpower, hround⟩
      rw [numberLiteral?, isFloatText_signed, if_pos hfloat, readBinary64_signed hunsigned, hread]

/-- The numbers of a condition.  What starts with a digit or a minus sign and goes on up to a space
or a closing parenthesis is read if it is a number of the grammar, as the literal it stands for,
and the space or the parenthesis comes next.  Everything else is refused where it starts. -/
theorem readLiteral_eq_ok_iff_isNumberWord {word rest : List Char} {c : Char}
    (hstart : ∃ d ∈ word.head?, d.isDigit = true ∨ d = '-')
    (hword : ∀ d ∈ word, d ≠ ' ' ∧ d ≠ ')') (hc : c = ' ' ∨ c = ')') :
    (∀ literal behind, readLiteral (word ++ c :: rest) = .ok (literal, behind) ↔
        IsNumberWord word literal ∧ behind = c :: rest) ∧
      ((∀ literal, ¬IsNumberWord word literal) →
        readLiteral (word ++ c :: rest) = .error ⟨.invalidLiteral, word ++ c :: rest⟩) := by
  have hplus : '+' ∉ word.head? := by
    obtain ⟨d, hd, hshape⟩ := hstart
    intro hhead
    obtain rfl := Option.mem_unique hd hhead
    exact absurd hshape (by decide)
  have hindex : ∃ d ∈ word.head?, isIndexChar d = true := by
    simpa [isIndexChar] using hstart
  have hnumber : ∀ d ∈ word, isNumberChar d = true := by
    intro d hd
    simpa [isNumberChar] using hword d hd
  have hend : isNumberChar c = false := by
    rcases hc with rfl | rfl <;> decide
  rw [readLiteral_number hindex hnumber hend]
  cases hliteral : numberLiteral? word with
  | none =>
    have hnone : ∀ literal, ¬IsNumberWord word literal := by
      intro literal h
      rw [(numberLiteral?_eq_some_iff hplus).mpr h] at hliteral
      contradiction
    exact ⟨fun literal behind => ⟨fun h => by contradiction, fun h => absurd h.1 (hnone literal)⟩,
      fun _ => rfl⟩
  | some value =>
    have hvalue := (numberLiteral?_eq_some_iff hplus).mp hliteral
    refine ⟨fun literal behind => ?_, fun h => absurd hvalue (h value)⟩
    rw [← numberLiteral?_eq_some_iff hplus, hliteral]
    simp [eq_comm]

/-- `-.5E+1` is minus five, and `1-2` is no number. -/
theorem readLiteral_negative_five :
    (∃ code_lt, readLiteral "-.5E+1) ".toList =
      .ok (.float (.finite ⟨true, 0x4014000000000000, code_lt⟩), [')', ' '])) ∧
    readLiteral "1-2 )".toList = .error ⟨.invalidLiteral, "1-2 )".toList⟩ := by
  have hlt : 0x4014000000000000 < infinityCode := by decide
  have hfive : magnitudeOfCode 0x4014000000000000 = 5 := by
    rw [show 0x4014000000000000 = 1024 * codesPerBinade + 5 * 2 ^ 50 by decide,
      magnitudeOfCode_binade (Or.inr (by decide)) (by decide), spacing]
    norm_num
  have hmantissa : IsMantissa ['.', '5'] (0 + 5 / 10 ^ 1) :=
    @IsMantissa.point [] ['5'] (by simp) (by simp) (by simp)
  have hpower : IsPower ['E', '+', '1'] 1 := .plus (Or.inr rfl) (by decide)
  have hround : IsNearestCode ((0 + 5 / 10 ^ 1) * 10 ^ (1 : Int)) 0x4014000000000000 := by
    have hvalue : ((0 + 5 / 10 ^ 1) * 10 ^ (1 : Int) : ℚ) = magnitudeOfCode 0x4014000000000000 := by
      norm_num [hfive]
    exact hvalue ▸ isNearestCode_magnitudeOfCode _
  have hword : IsNumberWord ['-', '.', '5', 'E', '+', '1']
      (.float (.finite ⟨true, 0x4014000000000000, hlt⟩)) :=
    @IsNumberWord.float _ _ _ _ ⟨true, 0x4014000000000000, hlt⟩ hmantissa hpower (Or.inl (by simp))
      hround
  have hnone : ∀ literal, ¬IsNumberWord ['1', '-', '2'] literal := by
    intro literal h
    have hread := (numberLiteral?_eq_some_iff (by decide)).mpr h
    contradiction
  constructor
  · exact ⟨hlt, ((readLiteral_eq_ok_iff_isNumberWord ⟨'-', rfl, Or.inr rfl⟩ (by simp)
      (Or.inr rfl)).1 _ _).mpr ⟨hword, rfl⟩⟩
  · exact (readLiteral_eq_ok_iff_isNumberWord ⟨'1', rfl, Or.inl rfl⟩ (by simp) (Or.inl rfl)).2 hnone

end JsonSelect
