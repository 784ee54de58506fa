import Mathlib.Data.List.DropRight
import JsonSelect.Numeric.Layout
import JsonSelect.Proofs.Grammar.NumberWord
import JsonSelect.Proofs.Numeric.ShortestDecimal

/-!
# Positional texts of decimals

A decimal is written with its significant digits, a point where it belongs, and as many zeros as it
takes.  The digits stand for the decimal (`ofDecimal_spec`), and there is a point in the text
exactly if the decimal has a fraction: a whole decimal is a run of digits (`isDigitRun_positional`),
and the text of any other one is a mantissa with a point (`isMantissa_positional`).  For this the
zeros at the end of the digits have to be gone, since `1.0` would have a point and no fraction.
-/

namespace JsonSelect

/-! ### Zeros and last digits -/

theorem digitsValue_zeros (n : Nat) : digitsValue (DigitString.zeros n) = 0 := by
  induction n with
  | zero => rfl
  | succ n ih =>
    rw [DigitString.zeros, List.replicate_succ', digitsValue_append, ← DigitString.zeros, ih]
    rfl

/-- Zeros in front of digits do not change their value. -/
theorem digitsValue_zeros_append (n : Nat) (digits : List Char) :
    digitsValue (DigitString.zeros n ++ digits) = digitsValue digits := by
  rw [digitsValue_append, digitsValue_zeros, Nat.zero_mul, Nat.zero_add]

/-- Each zero behind digits multiplies their value by ten. -/
theorem digitsValue_append_zeros (digits : List Char) (n : Nat) :
    digitsValue (digits ++ DigitString.zeros n) = digitsValue digits * 10 ^ n := by
  rw [digitsValue_append, digitsValue_zeros, Nat.add_zero, DigitString.zeros, List.length_replicate]

theorem isDigit_of_mem_zeros {n : Nat} {c : Char} (h : c ∈ DigitString.zeros n) :
    c.isDigit = true := by
  obtain rfl := List.eq_of_mem_replicate h
  rfl

/-- Digits that do not end with a zero stand for no multiple of ten. -/
theorem digitsValue_mod_ten {front : List Char} {c : Char} (hdigit : c.isDigit = true)
    (hzero : c ≠ '0') : digitsValue (front ++ [c]) % 10 ≠ 0 := by
  obtain ⟨hlow, hhigh⟩ := Char.isDigit_iff_toNat.mp hdigit
  have hne : c.toNat ≠ '0'.toNat := fun heq => hzero (Char.toNat_inj.mp heq)
  have hlast : digitsValue [c] = c.toNat - '0'.toNat := Nat.zero_add _
  rw [show '9'.toNat = '0'.toNat + 9 by decide] at hhigh
  rw [digitsValue_append, hlast, List.length_singleton, pow_one, Nat.mul_comm, Nat.mul_add_mod]
  omega

namespace DigitString

/-! ### Significant digits -/

/-- The number that the digits stand for. -/
def value (s : DigitString) : ℚ :=
  digitsValue s.digits * 10 ^ (s.point - s.digits.length)

/-- What the layout relies on: there are digits, and with a fraction they do not end with a zero. -/
structure IsTrimmed (s : DigitString) : Prop where
  isDigitRun : isDigitRun s.digits = true
  mod_ten : s.point < s.digits.length → digitsValue s.digits % 10 ≠ 0

/-- Digits are those without the zeros at their end, and these zeros. -/
theorem exists_eq_append_zeros (all : List Char) :
    ∃ digits n, (all.reverse.dropWhile (· == '0')).reverse = digits ∧ all = digits ++ zeros n ∧
      ∀ front c, digits = front ++ [c] → c ≠ '0' := by
  refine ⟨all.rdropWhile (· == '0'), (all.rtakeWhile (· == '0')).length, rfl, ?_, ?_⟩
  · have hzeros : all.rtakeWhile (· == '0') = zeros (all.rtakeWhile (· == '0')).length :=
      List.eq_replicate_of_mem fun c hc => by
        have hzero := List.mem_rtakeWhile_imp hc
        exact eq_of_beq hzero
    rw [← hzeros, List.rdropWhile_append_rtakeWhile]
  · rintro front c hdigits rfl
    have hlast := List.rdropWhile_last_not (· == '0') all (hdigits ▸ by simp)
    simp [hdigits] at hlast

/-- The digits of a decimal stand for it, and zeros do not end them. -/
theorem ofDecimal_spec (d : Decimal) :
    (ofDecimal d).IsTrimmed ∧ (ofDecimal d).value = d.value := by
  unfold ofDecimal
  dsimp only
  split
  · next hzero =>
    have hvalue : digitsValue ['0'] = 0 := by decide
    refine ⟨⟨rfl, fun hpoint => absurd hpoint (by decide)⟩, ?_⟩
    rw [Decimal.value, hzero, value, hvalue, Nat.cast_zero, zero_mul, zero_mul]
  · next hpositive =>
    obtain ⟨digits, n, hdigits, hall, hlast⟩ := exists_eq_append_zeros (decimalDigits d.coefficient)
    have hcoefficient : d.coefficient = digitsValue digits * 10 ^ n := by
      rw [← digitsValue_append_zeros, ← hall, digitsValue_decimalDigits]
    have hdigit : ∀ c ∈ digits, c.isDigit = true := fun c hc =>
      isDigit_of_mem_decimalDigits (hall ▸ List.mem_append_left _ hc)
    rw [hdigits]
    rcases List.eq_nil_or_concat' digits with rfl | ⟨front, c, rfl⟩
    · exact absurd (by rw [hcoefficient]; exact Nat.zero_mul _) hpositive
    · refine ⟨⟨?_, fun _ => ?_⟩, ?_⟩
      · exact isDigitRun_eq_true_iff.mpr ⟨by simp, hdigit⟩
      · exact digitsValue_mod_ten (hdigit c (by simp)) (hlast front c rfl)
      · have hexponent : d.exponent + ((front ++ [c] ++ zeros n).length : Nat) -
            ((front ++ [c]).length : Nat) = n + d.exponent := by
          simp only [List.length_append, zeros, List.length_replicate]
          push_cast
          ring
        rw [value, Decimal.value, hall, hexponent, zpow_add₀ (by norm_num), hcoefficient]
        push_cast
        rw [zpow_natCast, mul_assoc]

section

variable {s : DigitString} (h : s.IsTrimmed)

include h

/-- There is a fraction exactly if the point is before the last digit. -/
theorem IsTrimmed.isWhole_value_iff : IsWhole s.value ↔ s.digits.length ≤ s.point := by
  constructor
  · rintro ⟨n, hn⟩
    by_contra hpoint
    obtain ⟨places, hplaces⟩ : ∃ places : Nat, (s.digits.length : Int) - s.point = places + 1 :=
      ⟨((s.digits.length : Int) - s.point - 1).toNat, by omega⟩
    have hexponent : s.point - s.digits.length = -((places + 1 : Nat) : Int) := by
      push_cast
      omega
    rw [value, hexponent, zpow_neg, zpow_natCast, ← div_eq_mul_inv,
      div_eq_iff (by positivity)] at hn
    have hmultiple : digitsValue s.digits = n * 10 ^ places * 10 := by
      rw [mul_assoc, ← pow_succ]
      exact_mod_cast hn
    exact h.mod_ten (not_le.mp hpoint) (hmultiple ▸ Nat.mul_mod_left _ _)
  · intro hpoint
    obtain ⟨places, hplaces⟩ := Int.eq_ofNat_of_zero_le (Int.sub_nonneg_of_le hpoint)
    refine ⟨digitsValue s.digits * 10 ^ places, ?_⟩
    rw [value, hplaces]
    push_cast
    rfl

/-! ### Positional texts -/

/-- The text starts with a digit. -/
theorem IsTrimmed.exists_positional_eq_cons :
    ∃ c rest, s.positional [] = c :: rest ∧ c.isDigit = true := by
  obtain ⟨hne, hdigit⟩ := isDigitRun_eq_true_iff.mp h.isDigitRun
  obtain ⟨c, rest, hdigits⟩ := List.exists_cons_of_ne_nil hne
  have hc : c.isDigit = true := hdigit c (hdigits ▸ List.mem_cons_self)
  unfold positional
  split
  · exact ⟨'0', _, rfl, by decide⟩
  · next hpoint =>
    split
    · exact ⟨c, _, by rw [hdigits]; rfl, hc⟩
    · obtain ⟨before, hbefore⟩ : ∃ before, s.point.toNat = before + 1 :=
        Nat.exists_eq_add_one.mpr (by omega)
      exact ⟨c, _, by rw [hdigits, hbefore]; rfl, hc⟩

/-- Without a fraction the text is a run of digits. -/
theorem IsTrimmed.isDigitRun_positional (hpoint : s.digits.length ≤ s.point) :
    JsonSelect.isDigitRun (s.positional []) = true ∧
      (digitsValue (s.positional []) : ℚ) = s.value := by
  obtain ⟨hne, hdigit⟩ := isDigitRun_eq_true_iff.mp h.isDigitRun
  have hlength : 0 < s.digits.length := List.length_pos_iff.mpr hne
  obtain ⟨places, hplaces⟩ := Int.eq_ofNat_of_zero_le (Int.sub_nonneg_of_le hpoint)
  have htext : s.positional [] = s.digits ++ zeros places := by
    rw [positional, if_neg (by omega), if_pos (by omega), List.append_nil]
    congr 2
    omega
  rw [htext]
  constructor
  · refine isDigitRun_eq_true_iff.mpr ⟨by simp [hne], fun c hc => ?_⟩
    exact (List.mem_append.mp hc).elim (hdigit c) isDigit_of_mem_zeros
  · rw [digitsValue_append_zeros, value, hplaces]
    push_cast
    rw [zpow_natCast]

/-- With a fraction the text is a mantissa with a point. -/
theorem IsTrimmed.isMantissa_positional (hpoint : s.point < s.digits.length) :
    IsMantissa (s.positional []) s.value ∧ '.' ∈ s.positional [] := by
  obtain ⟨hne, hdigit⟩ := isDigitRun_eq_true_iff.mp h.isDigitRun
  rcases le_or_gt s.point 0 with hbefore | hinside
  · obtain ⟨places, hplaces⟩ := Int.eq_ofNat_of_zero_le (Int.neg_nonneg_of_nonpos hbefore)
    have htext : s.positional [] = ['0'] ++ '.' :: (zeros places ++ s.digits) := by
      rw [positional, if_pos hbefore, hplaces, Int.toNat_natCast]
      rfl
    have hmantissa : IsMantissa (['0'] ++ '.' :: (zeros places ++ s.digits)) _ :=
      .point (List.forall_mem_singleton.mpr rfl)
        (fun c hc => (List.mem_append.mp hc).elim isDigit_of_mem_zeros (hdigit c))
        (Or.inl (List.cons_ne_nil _ _))
    have hexponent : s.point - s.digits.length =
        -((zeros places ++ s.digits).length : Int) := by
      simp only [List.length_append, zeros, List.length_replicate]
      omega
    have hzero : digitsValue ['0'] = 0 := by decide
    have hvalue : s.value = (digitsValue ['0'] : ℚ) +
        digitsValue (zeros places ++ s.digits) / 10 ^ (zeros places ++ s.digits).length := by
      rw [value, hexponent, zpow_neg, zpow_natCast, ← div_eq_mul_inv, digitsValue_zeros_append,
        hzero, Nat.cast_zero, zero_add]
    rw [htext, hvalue]
    exact ⟨hmantissa, by simp⟩
  · have htext : s.positional [] =
        s.digits.take s.point.toNat ++ '.' :: s.digits.drop s.point.toNat := by
      rw [positional, if_neg (not_le.mpr hinside), if_neg (by omega)]
    have hmantissa :
        IsMantissa (s.digits.take s.point.toNat ++ '.' :: s.digits.drop s.point.toNat) _ :=
      .point (fun c hc => hdigit c (List.mem_of_mem_take hc))
        (fun c hc => hdigit c (List.mem_of_mem_drop hc))
        (Or.inr (by simp; omega))
    have hexponent : s.point - s.digits.length = -((s.digits.drop s.point.toNat).length : Int) := by
      rw [List.length_drop]
      omega
    have hvalue : s.value = (digitsValue (s.digits.take s.point.toNat) : ℚ) +
        digitsValue (s.digits.drop s.point.toNat) / 10 ^ (s.digits.drop s.point.toNat).length := by
      have hsplit := digitsValue_append (s.digits.take s.point.toNat) (s.digits.drop s.point.toNat)
      rw [List.take_append_drop] at hsplit
      rw [value, hexponent, zpow_neg, zpow_natCast, hsplit]
      push_cast
      field_simp
    rw [htext, hvalue]
    exact ⟨hmantissa, by simp⟩

/-- There are only digits in the text, and perhaps a point. -/
theorem IsTrimmed.isDigit_or_eq_point : ∀ c ∈ s.positional [], c.isDigit = true ∨ c = '.' := by
  rcases lt_or_ge s.point s.digits.length with hfraction | hwhole
  · exact (h.isMantissa_positional hfraction).1.isDigit_or_eq_point
  · intro c hc
    exact Or.inl ((isDigitRun_eq_true_iff.mp (h.isDigitRun_positional hwhole).1).2 c hc)

end

end DigitString

end JsonSelect
