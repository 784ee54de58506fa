import JsonSelect.Proofs.Grammar.Conjunction
import JsonSelect.Proofs.RoundTrip.Comparison
import JsonSelect.Proofs.RoundTrip.PositionalText

/-!
# Written floating-point literals

A floating-point literal is written positionally and without a point if it is whole.  Only a point
or an exponent tells a floating-point number from an integer, so that a literal with a fraction is
read back as itself, and a whole one is not.

Main statement: what becomes of every finite literal in a comparison of the child itself, with the
bound `2 ^ 63` between the whole literals that come back as integers and those that are refused
(`compileWithin_childExpression_float`).
-/

namespace JsonSelect

namespace FiniteFloat

variable {x : FiniteFloat}

/-! ### The text of a literal -/

/-- The text of a literal without its sign. -/
def magnitudeText (x : FiniteFloat) : List Char :=
  (DigitString.ofDecimal (x.shortest .away)).positional []

/-- The text of a float is that of its magnitude behind its sign. -/
theorem text_float (x : FiniteFloat) :
    (Literal.float (.finite x)).text = signed x.negative x.magnitudeText := rfl

/-- The shortest decimal of a float is whole exactly if the float is. -/
theorem isWhole_value_ofDecimal_iff (x : FiniteFloat) :
    IsWhole (DigitString.ofDecimal (x.shortest .away)).value ↔ IsWhole x.magnitude := by
  rw [(DigitString.ofDecimal_spec _).2, isWhole_shortest_iff]

/-- A whole literal is a run of digits. -/
theorem isDigitRun_magnitudeText (h : IsWhole x.magnitude) :
    isDigitRun x.magnitudeText = true ∧
      (digitsValue x.magnitudeText : ℚ) = (x.shortest .away).value := by
  obtain ⟨htrimmed, hvalue⟩ := DigitString.ofDecimal_spec (x.shortest .away)
  have hpoint := htrimmed.isWhole_value_iff.mp (x.isWhole_value_ofDecimal_iff.mpr h)
  rw [← hvalue]
  exact htrimmed.isDigitRun_positional hpoint

/-- A literal with a fraction is a floating-point number of the grammar. -/
theorem isNumberWord_text (h : ¬IsWhole x.magnitude) :
    IsNumberWord (Literal.float (.finite x)).text (.float (.finite x)) := by
  obtain ⟨htrimmed, hvalue⟩ := DigitString.ofDecimal_spec (x.shortest .away)
  have hpoint := not_le.mp
    (mt htrimmed.isWhole_value_iff.mpr (mt x.isWhole_value_ofDecimal_iff.mp h))
  obtain ⟨hmantissa, hmem⟩ := htrimmed.isMantissa_positional hpoint
  have hround : IsNearestCode ((DigitString.ofDecimal (x.shortest .away)).value * 10 ^ (0 : Int))
      x.code := by
    rw [zpow_zero, mul_one, hvalue]
    exact x.isNearestCode_shortest .away
  have hword := IsNumberWord.float hmantissa .none (Or.inl hmem) hround
  rwa [List.append_nil] at hword

/-- The text of a float consists of characters of numbers. -/
theorem isNumberChar_of_mem_text {c : Char} (hc : c ∈ (Literal.float (.finite x)).text) :
    isNumberChar c = true := by
  have hmagnitude : ∀ c ∈ x.magnitudeText, isNumberChar c = true := by
    intro c hc
    rcases (DigitString.ofDecimal_spec _).1.isDigit_or_eq_point c hc with hdigit | rfl
    · exact isNumberChar_of_isIndexChar (by simp [isIndexChar, hdigit])
    · decide
  rw [text_float, signed] at hc
  split at hc
  · rcases List.mem_cons.mp hc with rfl | hc
    · decide
    · exact hmagnitude c hc
  · exact hmagnitude c hc

/-- A literal starts with a minus sign or with a digit. -/
theorem exists_text_eq_cons (x : FiniteFloat) : ∃ c rest,
    (Literal.float (.finite x)).text = c :: rest ∧ isIndexChar c = true := by
  rw [text_float, signed]
  split
  · exact ⟨'-', _, rfl, by decide⟩
  · obtain ⟨c, rest, htext, hdigit⟩ :=
      (DigitString.ofDecimal_spec (x.shortest .away)).1.exists_positional_eq_cons
    exact ⟨c, rest, htext, by simp [isIndexChar, hdigit]⟩

/-- What is read of a literal before the end of a filter. -/
theorem readLiteral_text (x : FiniteFloat) :
    readLiteral ((Literal.float (.finite x)).text ++ [')', ']']) =
      (numberLiteral? (Literal.float (.finite x)).text).elim
        (.error ⟨.invalidLiteral, (Literal.float (.finite x)).text ++ [')', ']']⟩)
        fun literal => .ok (literal, [')', ']']) := by
  obtain ⟨c, rest, htext, hc⟩ := x.exists_text_eq_cons
  refine readLiteral_number ?_ (fun d hd => isNumberChar_of_mem_text hd) (by decide)
  rw [htext]
  exact ⟨c, rfl, hc⟩

/-! ### Literals with a fraction -/

/-- The text of a float does not start with a plus sign. -/
theorem plus_notMem_head?_text (x : FiniteFloat) :
    '+' ∉ (Literal.float (.finite x)).text.head? := by
  obtain ⟨c, rest, htext, hc⟩ := x.exists_text_eq_cons
  rw [htext]
  rintro ⟨⟩
  exact absurd hc (by decide)

/-- A literal with a fraction is read back. -/
theorem numberLiteral?_text_of_not_isWhole (h : ¬IsWhole x.magnitude) :
    numberLiteral? (Literal.float (.finite x)).text = some (.float (.finite x)) :=
  (numberLiteral?_eq_some_iff x.plus_notMem_head?_text).mpr (isNumberWord_text h)

/-! ### Whole literals -/

/-- The integer with the given absolute value and sign. -/
def signedInt (negative : Bool) (n : Nat) : Int :=
  if negative then -(n : Int) else n

/-- The sign of an integer does not change its absolute value. -/
theorem natAbs_signedInt (negative : Bool) (n : Nat) : (signedInt negative n).natAbs = n := by
  cases negative
  · exact Int.natAbs_natCast n
  · exact Int.natAbs_neg _

/-- A run of digits, with a minus sign or without one, is read as an integer if it is in the range
of these. -/
theorem numberLiteral?_signed {digits : List Char} (hrun : isDigitRun digits = true)
    (negative : Bool) : numberLiteral? (signed negative digits) =
      (int64? (signedInt negative (digitsValue digits))).map .integer := by
  have hfloat : isFloatText digits = false := by
    refine isFloatText_eq_false fun c hc => ?_
    simp [isIndexChar, (isDigitRun_eq_true_iff.mp hrun).2 c hc]
  have hread : readInt64 (signed negative digits) =
      int64? (signedInt negative (digitsValue digits)) := by
    cases negative with
    | true => exact if_pos hrun
    | false =>
      unfold signed readInt64
      split
      · next rest htext =>
        obtain rfl : digits = '-' :: rest := htext
        rw [isDigitRun_minus_cons] at hrun
        contradiction
      · exact if_pos hrun
  rw [numberLiteral?, isFloatText_signed, hfloat, hread]
  rfl

/-- The integers below `2 ^ 63` have words with both signs. -/
theorem exists_int64?_signedInt {n : Nat} (h : n < 2 ^ 63) (negative : Bool) :
    ∃ word : Int64, int64? (signedInt negative n) = some word := by
  cases hword : int64? (signedInt negative n) with
  | some word => exact ⟨word, rfl⟩
  | none =>
    have habs := natAbs_signedInt negative n
    rcases forall_lt_or_forall_lt_of_int64?_eq_none hword with hbelow | habove
    · have hmin := hbelow Int64.minValue
      rw [Int64.toInt_minValue] at hmin
      omega
    · have hmax := habove Int64.maxValue
      rw [Int64.toInt_maxValue] at hmax
      omega

/-- Beyond `2 ^ 63` they have none. -/
theorem int64?_signedInt_eq_none {n : Nat} (h : 2 ^ 63 < n) (negative : Bool) :
    int64? (signedInt negative n) = none := by
  cases hword : int64? (signedInt negative n) with
  | none => rfl
  | some word =>
    have habs := natAbs_signedInt negative n
    have hvalue := toInt_of_int64? hword
    have hlow := word.le_toInt
    have hhigh := word.toInt_lt
    omega

/-- The integer with the digits of a number is rounded to that number. -/
theorem exists_ofInt_signedInt_eq_finite {n : Nat} (h : IsNearestCode n x.code) :
    ∃ y, Binary64.ofInt (signedInt x.negative n) = .finite y ∧ y.value = x.value := by
  have hround : roundRatio n 1 = x.code := by
    have hnearest := isNearestCode_roundRatio n one_ne_zero
    rw [Nat.cast_one, div_one] at hnearest
    exact hnearest.unique h
  refine ⟨⟨decide (signedInt x.negative n < 0), x.code, x.code_lt⟩, ?_, ?_⟩
  · rw [Binary64.ofInt, Binary64.ofRatio, natAbs_signedInt, hround, Binary64.ofCode,
      dif_pos x.code_lt]
  · rw [value, value, magnitude_eq, magnitude_eq]
    cases hnegative : x.negative with
    | false => simp [signedInt]
    | true =>
      rcases Nat.eq_zero_or_pos n with rfl | hpos
      · -- the integer zero has one sign, and the values of both zeros are the same
        have hzero : IsNearestCode (0 : Nat) 0 := by
          rw [Nat.cast_zero, ← magnitudeOfCode_zero]
          exact isNearestCode_magnitudeOfCode 0
        have hmagnitude : magnitudeOfCode x.code = 0 := by
          rw [h.unique hzero, magnitudeOfCode_zero]
        simp [hmagnitude]
      · simp [signedInt, hpos]

/-- A whole literal below `2 ^ 63` is read as the integer with its digits, and this integer is
rounded to the number. -/
theorem exists_numberLiteral?_text_eq_integer (h : IsWhole x.magnitude)
    (hrange : x.magnitude < 2 ^ 63) : ∃ n : Int64,
      numberLiteral? (Literal.float (.finite x)).text = some (.integer n) ∧
        ∃ y, Binary64.ofInt n.toInt = .finite y ∧ y.value = x.value := by
  obtain ⟨hrun, hvalue⟩ := isDigitRun_magnitudeText h
  have hbound : digitsValue x.magnitudeText < 2 ^ 63 := by
    have hlt := value_shortest_lt .away hrange
    rw [← hvalue] at hlt
    exact_mod_cast hlt
  obtain ⟨n, hn⟩ := exists_int64?_signedInt hbound x.negative
  refine ⟨n, ?_, ?_⟩
  · rw [text_float, numberLiteral?_signed hrun, hn]
    rfl
  · rw [toInt_of_int64? hn]
    exact exists_ofInt_signedInt_eq_finite (hvalue ▸ x.isNearestCode_shortest .away)

/-- A whole literal from `2 ^ 63` on is refused: its digits are out of the range of integers. -/
theorem numberLiteral?_text_eq_none (h : IsWhole x.magnitude) (hrange : 2 ^ 63 ≤ x.magnitude) :
    numberLiteral? (Literal.float (.finite x)).text = none := by
  obtain ⟨hrun, hvalue⟩ := isDigitRun_magnitudeText h
  have hbound : 2 ^ 63 < digitsValue x.magnitudeText := by
    have hlt := lt_value_shortest hrange
    rw [← hvalue] at hlt
    exact_mod_cast hlt
  rw [text_float, numberLiteral?_signed hrun, int64?_signedInt_eq_none hbound]
  rfl

end FiniteFloat

/-! ### Comparisons of the child itself -/

/-- A comparison of the child itself is read up to its literal. -/
theorem readConditions_child {operator : Operator} (hpresent : operator ≠ .present)
    {limit levels : Nat} {text : List Char} (hspace : skipSpaces text = text) (hne : text ≠ []) :
    readConditions (conditionReader limit (levels + 1))
        ('@' :: ' ' :: (operator.symbol.toList ++ ' ' :: text)) =
      (readLiteral text).bind fun (literal, rest) =>
        if (skipSpaces rest).isEmpty then .error ⟨.openFilter, []⟩
        else
          afterCondition (conditionReader limit (levels + 1)) (.comparison [] operator literal)
            (skipSpaces rest) := by
  have hread : ∀ text, (conditionReader limit (levels + 1)).read text =
      readCondition (conditionReader limit levels) text := fun _ => rfl
  have hends : EndsPath true (' ' :: (operator.symbol.toList ++ ' ' :: text)) := by
    rintro _ ⟨⟩
    decide
  have hcomparison := readComparison_symbol hpresent [] text
  rw [hspace, List.isEmpty_eq_false_iff.mpr hne] at hcomparison
  rw [readConditions_eq_bind, hread,
    readCondition_of_skipSpaces (skipSpaces_cons_of_ne (by decide) _), if_pos rfl,
    readSegments_of_endsPath hends]
  change (readComparison [] _).bind _ = _
  rw [hcomparison]
  cases readLiteral text with
  | error failure => rfl
  | ok read =>
    obtain ⟨literal, rest⟩ := read
    cases hempty : (skipSpaces rest).isEmpty <;>
      simp only [Except.bind, Bool.false_eq_true, if_false, if_true, hempty]

/-- The filter whose only condition compares the child with a floating-point literal. -/
def childExpression (operator : Operator) (x : FiniteFloat) : String :=
  filterExpression
    ("@ " ++ operator.symbol ++ " " ++ String.ofList (Literal.float (.finite x)).text)

/-- The characters of an expression that compares a child with a float. -/
theorem toList_childExpression (operator : Operator) (x : FiniteFloat) :
    (childExpression operator x).toList =
      '$' :: '[' :: '?' :: '(' :: '@' :: ' ' :: (operator.symbol.toList ++
        ' ' :: ((Literal.float (.finite x)).text ++ [')', ']'])) := by
  simp [childExpression, toList_filterExpression]

/-- The literal of the filter is what is read of its text. -/
theorem compileWithin_childExpression {operator : Operator} (hpresent : operator ≠ .present)
    (limit : Nat) (x : FiniteFloat) :
    compileWithin (limit + 1) (childExpression operator x) =
      (numberLiteral? (Literal.float (.finite x)).text).elim
        (.error ⟨.invalidLiteral, operator.symbol.toList.length + 7⟩)
        fun literal => .ok [.filter [.comparison [] operator literal]] := by
  have hspace : skipSpaces ((Literal.float (.finite x)).text ++ [')', ']']) =
      (Literal.float (.finite x)).text ++ [')', ']'] := by
    obtain ⟨c, rest, htext, hindex⟩ := x.exists_text_eq_cons
    rw [htext, List.cons_append]
    refine skipSpaces_cons_of_ne ?_ _
    rintro rfl
    exact absurd hindex (by decide)
  have hconditions : readConditions (conditionReader (limit + 1) (limit + 1)) _ = _ :=
    readConditions_child hpresent hspace (by simp)
  rw [x.readLiteral_text] at hconditions
  cases hliteral : numberLiteral? (Literal.float (.finite x)).text with
  | none =>
    rw [hliteral] at hconditions
    rw [compileWithin, toList_childExpression, readExpression_filter_of_error hconditions]
    simp only [Except.mapError, Failure.toError, Option.elim_none, List.length_cons,
      List.length_append]
    congr 2
    omega
  | some literal =>
    rw [hliteral] at hconditions
    have hword : ("@ " ++ operator.symbol ++ " " ++
        String.ofList (Literal.float (.finite x)).text).toList ++ [')', ']'] =
        '@' :: ' ' :: (operator.symbol.toList ++
          ' ' :: ((Literal.float (.finite x)).text ++ [')', ']'])) := by
      simp
    rw [childExpression, Option.elim_some, compileWithin_filterExpression_iff, hword, hconditions]
    rfl

/-- Written floating-point literals.  In a comparison of the child itself, whatever the operator, a
literal with a fraction is read back.  A whole literal has no point and is not: below `2 ^ 63` it is
read as an integer, which is rounded to a number with the value of the literal, and from there on
it is refused, since its digits are out of the range of integers. -/
theorem compileWithin_childExpression_float {operator : Operator} (hpresent : operator ≠ .present)
    (limit : Nat) (x : FiniteFloat) :
    (¬IsWhole x.magnitude →
      compileWithin (limit + 1) (childExpression operator x) =
        .ok [.filter [.comparison [] operator (.float (.finite x))]]) ∧
    (IsWhole x.magnitude → x.magnitude < 2 ^ 63 → ∃ n : Int64,
      compileWithin (limit + 1) (childExpression operator x) =
        .ok [.filter [.comparison [] operator (.integer n)]] ∧
      ∃ y, Binary64.ofInt n.toInt = .finite y ∧ y.value = x.value) ∧
    (IsWhole x.magnitude → 2 ^ 63 ≤ x.magnitude →
      compileWithin (limit + 1) (childExpression operator x) =
        .error ⟨.invalidLiteral, operator.symbol.toList.length + 7⟩) := by
  simp only [compileWithin_childExpression hpresent]
  refine ⟨fun hfraction => ?_, fun hwhole hrange => ?_, fun hwhole hrange => ?_⟩
  · rw [FiniteFloat.numberLiteral?_text_of_not_isWhole hfraction]
    rfl
  · obtain ⟨n, hliteral, hround⟩ :=
      FiniteFloat.exists_numberLiteral?_text_eq_integer hwhole hrange
    rw [hliteral]
    exact ⟨n, rfl, hround⟩
  · rw [FiniteFloat.numberLiteral?_text_eq_none hwhole hrange]
    rfl

/-- Minus one half is read back. -/
theorem compileWithin_childExpression_float_half :
    let half : FiniteFloat := ⟨true, 1022 * codesPerBinade, by decide⟩
    Operator.less ≠ .present ∧ half.value = -1 / 2 ∧
      childExpression .less half = "$[?(@ < -0.5)]" ∧
      compileWithin 32 "$[?(@ < -0.5)]" =
        .ok [.filter [.comparison [] .less (.float (.finite half))]] := by
  intro half
  have hpresent : Operator.less ≠ .present := by decide
  have hmagnitude : half.magnitude = 1 / 2 :=
    (magnitudeOfCode_mul_codesPerBinade 1021).trans (by norm_num)
  have hfraction : ¬IsWhole half.magnitude := by
    rintro ⟨n, hn⟩
    rw [hmagnitude, div_eq_iff two_ne_zero] at hn
    have hodd : 1 = n * 2 := by exact_mod_cast hn
    omega
  have htext : childExpression .less half = "$[?(@ < -0.5)]" := by decide +kernel
  refine ⟨hpresent, ?_, htext, ?_⟩
  · rw [FiniteFloat.value, if_pos rfl, hmagnitude]
    norm_num
  · rw [← htext]
    exact (compileWithin_childExpression_float hpresent 31 half).1 hfraction

/-- The floating-point literals for ten and for `10 ^ 19`: the first one comes back as an integer,
and the second one is refused. -/
theorem compileWithin_childExpression_ten :
    let ten : FiniteFloat := ⟨false, 0x4024000000000000, by decide⟩
    let large : FiniteFloat := ⟨false, 0x43e158e460913d00, by decide⟩
    (ten.value = 10 ∧ childExpression .equal ten = "$[?(@ == 10)]" ∧
      compileWithin 32 "$[?(@ == 10)]" = .ok [.filter [.comparison [] .equal (.integer 10)]] ∧
      compileWithin 32 "$[?(@ == 10)]" ≠
        .ok [.filter [.comparison [] .equal (.float (.finite ten))]]) ∧
    large.value = 10 ^ 19 ∧ childExpression .equal large = "$[?(@ == 10000000000000000000)]" ∧
      compileWithin 32 "$[?(@ == 10000000000000000000)]" = .error ⟨.invalidLiteral, 9⟩ := by
  intro ten large
  have hpresent : Operator.equal ≠ .present := by decide
  have hten : childExpression .equal ten = "$[?(@ == 10)]" := by decide +kernel
  have hlarge : childExpression .equal large = "$[?(@ == 10000000000000000000)]" := by
    decide +kernel
  have htentext : (Literal.float (.finite ten)).text = ['1', '0'] := by decide +kernel
  have hread : compileWithin 32 "$[?(@ == 10)]" =
      .ok [.filter [.comparison [] .equal (.integer 10)]] := by
    rw [← hten, compileWithin_childExpression hpresent 31 ten, htentext]
    rfl
  have htenvalue : ten.value = 10 := by
    have hsignificand : ten.significand = 5629499534213120 := by decide
    have hexponent : ten.exponent = -49 := by decide
    rw [FiniteFloat.value, if_neg (by decide), FiniteFloat.magnitude, hsignificand, hexponent]
    norm_num
  have hlargevalue : large.value = 10 ^ 19 := by
    have hsignificand : large.significand = 4882812500000000 := by decide
    have hexponent : large.exponent = 11 := by decide
    rw [FiniteFloat.value, if_neg (by decide), FiniteFloat.magnitude, hsignificand, hexponent]
    norm_num
  refine ⟨⟨htenvalue, hten, hread, ?_⟩, hlargevalue, hlarge, ?_⟩
  · rw [hread]
    simp [Condition.comparison]
  · have hlargetext : (Literal.float (.finite large)).text = "10000000000000000000".toList := by
      decide +kernel
    rw [← hlarge, compileWithin_childExpression hpresent 31 large, hlargetext]
    rfl

end JsonSelect
