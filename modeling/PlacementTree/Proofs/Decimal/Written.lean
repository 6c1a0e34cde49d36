import PlacementTree.Decimal.Numeral
import PlacementTree.Decimal.Style
import PlacementTree.Proofs.Binary64.Packing

/-!
# The numeral that a double is written as

Where no power of ten is written, a finite double is written as a plain numeral (`Numeral.Plain`): perhaps a sign, then digits, a point and
digits again, with a zero in front only if it stands there alone. `write_configuration_cases` says so of every finite double, and
`Numeral.ofText` takes such a text apart again.

What there is to see is that the digits never start with a zero. The numbers that round to a double other than zero stay away from zero
(`Dyadic.interval_low_pos`), so the decimal found among them has a digit other than zero (`shortest_digits_pos`).
-/

namespace PlacementTree.Decimal

open Float.Model (Format UnpackedFloat)
open Float.Model.UnpackedFloat (Sign unpack)

/-! ## Plain numerals -/

/-- At least one digit, and a zero in front only if it stands there alone. -/
structure WholeDigits (digits : List Char) : Prop where
  ne_nil : digits ≠ []
  isDigit : ∀ c ∈ digits, c.isDigit = true
  alone_of_zero : digits.head? = some '0' → digits.length = 1

/-- The text of a sign. -/
def signText (negative : Bool) : List Char := if negative then ['-'] else []

/-- The number that a decimal stands for. -/
def Scaled.rat (d : Scaled) : ℚ := d.digits * 10 ^ d.exponent

namespace Numeral

/-- The number that a numeral stands for before it is rounded, without its sign. -/
def rat (n : Numeral) : ℚ := ofDigits (n.whole ++ n.fraction) * 10 ^ (n.exponent - n.fraction.length)

/-- The text of a numeral, without its power of ten. -/
def text (n : Numeral) : List Char := signText n.negative ++ (n.whole ++ '.' :: n.fraction)

/-- The numeral that a text without a power of ten spells. -/
def ofText (cs : List Char) : Numeral where
  negative := (splitSign cs).1
  whole := (splitDigits (splitSign cs).2).1
  fraction := (splitDigits (splitSign cs).2).2.tail
  exponent := 0

/-- A numeral with digits before and after its point and no power of ten. -/
structure Plain (n : Numeral) : Prop where
  whole : WholeDigits n.whole
  fraction_ne_nil : n.fraction ≠ []
  fraction_isDigit : ∀ c ∈ n.fraction, c.isDigit = true
  exponent_eq : n.exponent = 0

end Numeral

/-- A text that starts with a digit has no sign. -/
theorem splitSign_of_isDigit {c : Char} (hc : c.isDigit = true) (cs : List Char) : splitSign (c :: cs) = (false, c :: cs) := by
  unfold splitSign
  split
  · simp_all
  · simp_all
  · rfl

/-- A written sign is read back in front of a digit. -/
theorem splitSign_signText (negative : Bool) {c : Char} (hc : c.isDigit = true) (cs : List Char) :
    splitSign (signText negative ++ c :: cs) = (negative, c :: cs) := by
  cases negative with
  | true => rfl
  | false => exact splitSign_of_isDigit hc cs

/-- Digits end in front of what is no digit. -/
theorem splitDigits_append {digits rest : List Char} (h : ∀ c ∈ digits, c.isDigit = true)
    (hrest : ∀ c, rest.head? = some c → c.isDigit = false) : splitDigits (digits ++ rest) = (digits, rest) := by
  unfold splitDigits
  rw [List.takeWhile_append_of_pos h, List.dropWhile_append_of_pos h]
  cases rest with
  | nil => simp
  | cons c rest => simp [hrest c rfl]

/-- A plain numeral is found in its text. -/
theorem Numeral.Plain.ofText_text {n : Numeral} (h : n.Plain) : Numeral.ofText n.text = n := by
  obtain ⟨negative, whole, fraction, exponent⟩ := n
  obtain ⟨⟨hne, hwhole, -⟩, -, -, hexponent⟩ := h
  dsimp only at hne hwhole hexponent
  obtain ⟨c, cs, rfl⟩ := List.exists_cons_of_ne_nil hne
  have hdigits : splitDigits ((c :: cs) ++ '.' :: fraction) = (c :: cs, '.' :: fraction) := by
    apply splitDigits_append hwhole
    rintro _ ⟨⟩
    decide
  unfold Numeral.ofText Numeral.text
  dsimp only
  rw [List.cons_append, splitSign_signText negative (hwhole c (List.mem_cons_self ..))]
  dsimp only
  rw [← List.cons_append, hdigits, hexponent, List.tail_cons]

/-! ## The decimal found for a double is not zero -/

theorem Dyadic.mantissa_pos {magnitude : Nat} (h : magnitude ≠ 0) : 0 < (Dyadic.ofMagnitude magnitude).mantissa := by
  unfold Dyadic.ofMagnitude
  dsimp only
  split
  · rename_i hscale
    have hdecomposed := Nat.div_add_mod magnitude exponentUnit
    rw [hscale] at hdecomposed
    dsimp only
    omega
  · exact Nat.lt_of_lt_of_le (by decide) (Nat.le_add_right exponentUnit _)

/-- The numbers that round to a double other than zero stay away from zero. -/
theorem Dyadic.interval_low_pos {x : Dyadic} (h : 0 < x.mantissa) : 0 < x.interval.low := by
  unfold Dyadic.interval
  dsimp only
  apply Nat.mul_pos
  · split <;> omega
  · exact Nat.pow_pos Nat.two_pos

theorem Dyadic.interval_value_pos {x : Dyadic} (h : 0 < x.mantissa) : 0 < x.interval.value :=
  Nat.mul_pos (by omega) (Nat.pow_pos Nat.two_pos)

/-- The number of units that is chosen lies in the interval. -/
theorem Interval.holds_of_nearestUnits? {i : Interval} {tie : Tie} {units : Nat} (h : i.nearestUnits? tie = some units) :
    i.holds units = true := by
  unfold Interval.nearestUnits? at h
  dsimp only at h
  split at h
  · cases h
  · rename_i hbelow _
    cases h
    exact hbelow
  · rename_i habove
    cases h
    exact habove
  · rename_i hbelow habove
    have hchosen : units = i.value / i.denominator ∨ units = i.value / i.denominator + 1 := by
      split at h
      · exact .inl (Option.some.inj h).symm
      · split at h
        · exact .inr (Option.some.inj h).symm
        · cases tie with
          | up => exact .inr (Option.some.inj h).symm
          | toEven =>
            dsimp only at h
            split at h
            · exact .inl (Option.some.inj h).symm
            · exact .inr (Option.some.inj h).symm
    rcases hchosen with rfl | rfl
    · exact hbelow
    · exact habove

/-- Zero lies in no interval that stays away from it. -/
theorem Interval.units_pos {i : Interval} {units : Nat} (hlow : 0 < i.low) (h : i.holds units = true) : 0 < units := by
  apply Nat.pos_of_ne_zero
  rintro rfl
  simp [Interval.holds] at h
  omega

/-- Dropping trailing zeros leaves a digit. -/
theorem Scaled.trimmed_digits_pos (fuel : Nat) {d : Scaled} (h : 0 < d.digits) : 0 < (Scaled.trimmed fuel d).digits := by
  induction fuel generalizing d with
  | zero => exact h
  | succ fuel ih =>
    unfold Scaled.trimmed
    split
    · rename_i hzero
      simp at hzero
      exact ih (by dsimp only; omega)
    · exact h

theorem digits_pos_of_firstOnGrids {i : Interval} {tie : Tie} {lead : Int} {fuel count : Nat} {d : Scaled} (hlow : 0 < i.low)
    (h : firstOnGrids i tie lead fuel count = some d) : 0 < d.digits := by
  induction fuel generalizing count with
  | zero => cases h
  | succ fuel ih =>
    unfold firstOnGrids at h
    dsimp only at h
    split at h
    · rename_i units hunits
      have hscaled : 0 < (i.scale (lead + 1 - Int.ofNat count)).low := Nat.mul_pos hlow (Nat.pow_pos (by omega))
      cases h
      exact Scaled.trimmed_digits_pos 20 (Interval.units_pos hscaled (Interval.holds_of_nearestUnits? hunits))
    · exact ih h

/-- The digits of a double other than zero are not all zero. -/
theorem shortest_digits_pos (tie : Tie) {magnitude : Nat} (h : magnitude ≠ 0) : 0 < (shortest tie magnitude).digits := by
  have hmantissa := Dyadic.mantissa_pos h
  unfold shortest
  dsimp only
  cases hfirst : firstOnGrids (Dyadic.ofMagnitude magnitude).interval tie
      (leadingExponent (Dyadic.ofMagnitude magnitude).interval.value (Dyadic.ofMagnitude magnitude).interval.denominator) 17 1 with
  | none => exact Dyadic.interval_value_pos hmantissa
  | some d => exact digits_pos_of_firstOnGrids (Dyadic.interval_low_pos hmantissa) hfirst

/-! ## Digits -/

theorem isDigit_of_mem_toDigits {n : Nat} {c : Char} (h : c ∈ Nat.toDigits 10 n) : c.isDigit = true :=
  Nat.isDigit_of_mem_toDigits (by omega) (by omega) h

/-- A number of `n` digits is below the power of ten of `n`. -/
theorem lt_pow_length_toDigits (n : Nat) : n < 10 ^ (Nat.toDigits 10 n).length :=
  (Nat.length_toDigits_le_iff (by decide) Nat.length_toDigits_pos).mp (Nat.le_refl _)

/-- A number of `n` digits is not below the power of ten before that of `n`. -/
theorem pow_length_toDigits_le {n : Nat} (h : 0 < n) : 10 ^ ((Nat.toDigits 10 n).length - 1) ≤ n := by
  apply Nat.le_of_not_lt
  intro hless
  have hdigit : 0 < (Nat.toDigits 10 n).length := Nat.length_toDigits_pos
  rcases Nat.eq_zero_or_pos ((Nat.toDigits 10 n).length - 1) with hone | hmore
  · rw [hone] at hless
    omega
  · have := (Nat.length_toDigits_le_iff (by decide) hmore).mpr hless
    omega

/-- Only zero is written with a zero in front. -/
theorem head?_toDigits_ne_zero {n : Nat} (h : n ≠ 0) : (Nat.toDigits 10 n).head? ≠ some '0' := by
  induction n using Nat.strongRecOn with
  | ind n ih =>
    rw [Nat.toDigits_eq_if (by omega)]
    split
    · simpa using h
    · rw [List.head?_append_of_ne_nil _ Nat.toDigits_ne_nil]
      exact ih (n / 10) (by omega) (by omega)

theorem wholeDigits_toDigits (n : Nat) : WholeDigits (Nat.toDigits 10 n) where
  ne_nil := Nat.toDigits_ne_nil
  isDigit _ := isDigit_of_mem_toDigits
  alone_of_zero hzero := by
    by_cases hn : n = 0
    · rw [hn, Nat.toDigits_zero, List.length_singleton]
    · exact absurd hzero (head?_toDigits_ne_zero hn)

/-- Digits with a point among them or beside them, where zeros fill the gap, are a plain numeral, and the point says what it stands for. -/
theorem exists_plain_positionalText (negative : Bool) {n : Nat} (h : n ≠ 0) (point : Int) :
    ∃ numeral : Numeral, numeral.Plain ∧
      signText negative ++ (positionalText ".0" (Nat.toDigits 10 n) point).toList = numeral.text ∧
        numeral.negative = negative ∧ numeral.rat = n * 10 ^ (point - (Nat.toDigits 10 n).length) := by
  have hne : Nat.toDigits 10 n ≠ [] := Nat.toDigits_ne_nil
  have hhead := head?_toDigits_ne_zero h
  have hdigit : ∀ c ∈ Nat.toDigits 10 n, c.isDigit = true := fun c => isDigit_of_mem_toDigits
  have hvalue : Nat.ofDigitChars 10 (Nat.toDigits 10 n) 0 = n := Nat.ofDigitChars_ten_toDigits
  have hzeros : ∀ count, ∀ c ∈ List.replicate count '0', c.isDigit = true := by simp
  generalize Nat.toDigits 10 n = digits at hne hhead hdigit hvalue ⊢
  unfold positionalText
  simp only [Int.ofNat_eq_natCast]
  split
  · rename_i hpoint
    have hwhole : WholeDigits (digits ++ List.replicate (point - digits.length).toNat '0') := by
      refine ⟨by simp [hne], List.forall_mem_append.mpr ⟨hdigit, hzeros _⟩, ?_⟩
      rw [List.head?_append_of_ne_nil _ hne]
      exact fun hzero => absurd hzero hhead
    refine ⟨⟨negative, _, ['0'], 0⟩, ⟨hwhole, by simp, by simp, rfl⟩, ?_, rfl, ?_⟩
    · simp [Numeral.text]
    · have hfill : (10 : ℚ) ^ (point - digits.length).toNat = 10 ^ (point - digits.length) := by
        rw [← zpow_natCast, Int.toNat_of_nonneg (by omega)]
      have hdigits : ofDigits (digits ++ List.replicate (point - digits.length).toNat '0' ++ ['0']) =
          10 * (10 ^ (point - digits.length).toNat * n) := by
        simp only [ofDigits, Nat.ofDigitChars_append, Nat.ofDigitChars_replicate_zero, hvalue]
        simp [Nat.ofDigitChars_cons]
      rw [Numeral.rat, hdigits]
      push_cast
      rw [hfill]
      norm_num
      ring
  · rename_i hright
    split
    · rename_i hleft
      have hwhole : WholeDigits (digits.take point.toNat) := by
        refine ⟨?_, fun c hc => hdigit c (List.mem_of_mem_take hc), ?_⟩
        · simp [hne]
          omega
        · rw [List.head?_take, if_neg (by omega)]
          exact fun hzero => absurd hzero hhead
      refine ⟨⟨negative, _, digits.drop point.toNat, 0⟩, ⟨hwhole, ?_, fun c hc => hdigit c (List.mem_of_mem_drop hc), rfl⟩, ?_, rfl, ?_⟩
      · simp
        omega
      · simp [Numeral.text]
      · have hlength : (0 : ℤ) - (digits.drop point.toNat).length = point - digits.length := by
          rw [List.length_drop]
          omega
        rw [Numeral.rat, List.take_append_drop, ofDigits, hvalue, hlength]
    · rename_i hleft
      have hfraction := List.forall_mem_append.mpr ⟨hzeros (-point).toNat, hdigit⟩
      refine ⟨⟨negative, ['0'], _, 0⟩, ⟨⟨by simp, by simp, fun _ => rfl⟩, by simp [hne], hfraction, rfl⟩, ?_, rfl, ?_⟩
      · simp [Numeral.text]
      · have hlength : (0 : ℤ) - (List.replicate (-point).toNat '0' ++ digits).length = point - digits.length := by
          rw [List.length_append, List.length_replicate]
          omega
        have hdigits : ofDigits (['0'] ++ (List.replicate (-point).toNat '0' ++ digits)) = n := by
          simp [ofDigits, Nat.ofDigitChars_append, Nat.ofDigitChars_replicate_zero, Nat.ofDigitChars_cons, hvalue]
        rw [Numeral.rat, hdigits, hlength]

/-! ## Doubles -/

/-- Infinity with a sign. -/
def infinity (negative : Bool) : Float := if negative then -(1.0 / 0.0) else 1.0 / 0.0

/-- Only two patterns unpack to an infinity. -/
theorem bits_of_unpack_infinity {b : UInt64} {sign : Sign} (h : unpack Format.binary64 b.toBitVec = .infinity sign) :
    b = 0x7ff0000000000000 ∨ b = 0xfff0000000000000 := by
  have hlt := b.toBitVec.isLt
  simp only [unpack] at h
  split at h
  · rename_i hones
    split at h
    · rename_i hzero
      have hexponent : b.toBitVec.toNat / 2 ^ 52 % 2 ^ 11 = 2047 := by
        rw [← Binary64.toNat_unpackExponent, hones]
        rfl
      have hmantissa : b.toBitVec.toNat % 2 ^ 52 = 0 := by
        rw [← Binary64.toNat_unpackMantissa, hzero]
        rfl
      have hbits : b.toBitVec.toNat = 0x7ff0000000000000 ∨ b.toBitVec.toNat = 0xfff0000000000000 := by omega
      rcases hbits with hbits | hbits
      · exact .inl (UInt64.toNat_inj.mp hbits)
      · exact .inr (UInt64.toNat_inj.mp hbits)
    · cases h
  · split at h
    · split at h <;> cases h
    · cases h

theorem eq_infinity_of_isInf {x : Float} (h : x.isInf = true) : x = infinity (⟨x.toBits⟩ : Binary64).negative := by
  have hbits : x.toBits = 0x7ff0000000000000 ∨ x.toBits = 0xfff0000000000000 := by
    replace h : x.toModel.unpack.isInf = true := h
    cases hu : x.toModel.unpack with
    | infinity sign => exact bits_of_unpack_infinity hu
    | notANumber => simp [hu, UnpackedFloat.isInf] at h
    | zero sign => simp [hu, UnpackedFloat.isInf] at h
    | finite sign m e hm => simp [hu, UnpackedFloat.isInf] at h
  have hx := Float.ofBits_toBits x
  rcases hbits with hbits | hbits
  · rw [hbits] at hx ⊢
    rw [← hx]
    decide
  · rw [hbits] at hx ⊢
    rw [← hx]
    decide

theorem eq_nan_of_isNaN {x : Float} (h : x.isNaN = true) : x = 0.0 / 0.0 := by
  rw [of_decide_eq_true (Float.isNaN_eq_decide_eq_nan.symm.trans h)]
  decide

theorem isFinite_of_not {x : Float} (hnumber : ¬ x.isNaN = true) (hinfinite : ¬ x.isInf = true) : x.isFinite = true := by
  replace hnumber : ¬ x.toModel.unpack.isNaN = true := hnumber
  replace hinfinite : ¬ x.toModel.unpack.isInf = true := hinfinite
  show x.toModel.unpack.isFinite = true
  cases hu : x.toModel.unpack with
  | infinity sign => simp [hu, UnpackedFloat.isInf] at hinfinite
  | notANumber => simp [hu, UnpackedFloat.isNaN] at hnumber
  | zero sign => rfl
  | finite sign m e hm => rfl

theorem isInf_eq_false {x : Float} (h : x.isFinite = true) : x.isInf = false := by
  replace h : x.toModel.unpack.isFinite = true := h
  show x.toModel.unpack.isInf = false
  cases hu : x.toModel.unpack with
  | infinity sign => simp [hu, UnpackedFloat.isFinite] at h
  | notANumber => rfl
  | zero sign => rfl
  | finite sign m e hm => rfl

/-- The number that is written for a finite double, without its sign. -/
def Style.rat (style : Style) (x : Binary64) : ℚ := if x.magnitude = 0 then 0 else (shortest style.tie x.magnitude).rat

/-- What a double is written as where no power of ten is: a plain numeral if it is finite, else the name of what it is. -/
theorem write_configuration_cases (x : Float) :
    (x.isFinite = true ∧ ∃ n : Numeral, n.Plain ∧ (Style.configuration.write x).toList = n.text ∧
        n.negative = (⟨x.toBits⟩ : Binary64).negative ∧ n.rat = Style.configuration.rat ⟨x.toBits⟩) ∨
      (x = 0.0 / 0.0 ∧ (Style.configuration.write x).toList = ['n', 'a', 'n']) ∨
        ∃ negative, x = infinity negative ∧ (Style.configuration.write x).toList = signText negative ++ ['i', 'n', 'f'] := by
  have hsign (negative : Bool) : (if negative = true then "-" else "").toList = signText negative := by cases negative <;> rfl
  unfold Style.write
  split
  · rename_i hnan
    exact .inr (.inl ⟨eq_nan_of_isNaN hnan, rfl⟩)
  · rename_i hnumber
    dsimp only
    split
    · rename_i hinf
      refine .inr (.inr ⟨_, eq_infinity_of_isInf hinf, ?_⟩)
      rw [String.toList_append, hsign]
      rfl
    · rename_i hinf
      refine .inl ⟨isFinite_of_not hnumber hinf, ?_⟩
      split
      · rename_i hzero
        refine ⟨⟨(⟨x.toBits⟩ : Binary64).negative, ['0'], ['0'], 0⟩, ?_, ?_, rfl, ?_⟩
        · exact ⟨⟨by simp, by simp, fun _ => rfl⟩, by simp, by simp, rfl⟩
        · simp [hsign, Style.configuration, Numeral.text]
        · rw [Style.rat, if_pos hzero]
          exact zero_mul _
      · rename_i hzero
        have hdigits : (shortest .up (⟨x.toBits⟩ : Binary64).magnitude).digits ≠ 0 := by
          have := shortest_digits_pos .up hzero
          omega
        obtain ⟨n, hn, htext, hnegative, hrat⟩ := exists_plain_positionalText (⟨x.toBits⟩ : Binary64).negative hdigits
          (Int.ofNat (Nat.toDigits 10 (shortest .up (⟨x.toBits⟩ : Binary64).magnitude).digits).length +
            (shortest .up (⟨x.toBits⟩ : Binary64).magnitude).exponent)
        refine ⟨n, hn, ?_, hnegative, ?_⟩
        · rw [String.toList_append, hsign]
          exact htext
        · rw [hrat, Int.ofNat_eq_natCast, add_sub_cancel_left, Style.rat, if_neg hzero]
          rfl

/-- The characters of written numbers. -/
def isNumberChar (c : Char) : Bool := c.isDigit || ['-', '.', 'a', 'f', 'i', 'n'].contains c

theorem isNumberChar_of_isDigit {c : Char} (h : c.isDigit = true) : isNumberChar c = true := by simp [isNumberChar, h]

theorem isNumberChar_of_mem_signText {negative : Bool} {c : Char} (h : c ∈ signText negative) : isNumberChar c = true := by
  cases negative with
  | true =>
    rw [List.mem_singleton.mp h]
    decide
  | false => cases h

theorem Numeral.Plain.isNumberChar {n : Numeral} (hn : n.Plain) {c : Char} (h : c ∈ n.text) : Decimal.isNumberChar c = true := by
  rcases List.mem_append.mp h with h | h
  · exact isNumberChar_of_mem_signText h
  · rcases List.mem_append.mp h with h | h
    · exact isNumberChar_of_isDigit (hn.whole.isDigit c h)
    · rcases List.mem_cons.mp h with rfl | h
      · decide
      · exact isNumberChar_of_isDigit (hn.fraction_isDigit c h)

theorem isNumberChar_of_mem_write {x : Float} {c : Char} (h : c ∈ (Style.configuration.write x).toList) : isNumberChar c = true := by
  have hnan : ∀ d ∈ ['n', 'a', 'n'], isNumberChar d = true := by simp [isNumberChar]
  have hinf : ∀ d ∈ ['i', 'n', 'f'], isNumberChar d = true := by simp [isNumberChar]
  rcases write_configuration_cases x with ⟨-, n, hn, htext, -⟩ | ⟨-, htext⟩ | ⟨negative, -, htext⟩
  · rw [htext] at h
    exact hn.isNumberChar h
  · rw [htext] at h
    exact hnan c h
  · rw [htext] at h
    rcases List.mem_append.mp h with h | h
    · exact isNumberChar_of_mem_signText h
    · exact hinf c h

theorem write_ne_nil (x : Float) : (Style.configuration.write x).toList ≠ [] := by
  rcases write_configuration_cases x with ⟨-, n, -, htext, -⟩ | ⟨-, htext⟩ | ⟨negative, -, htext⟩ <;> simp [htext, Numeral.text]

/-- What a finite double is written as stands for the double. -/
def ReadsBack (x : Float) : Prop := (Numeral.ofText (Style.configuration.write x).toList).value = x

instance (x : Float) : Decidable (ReadsBack x) := inferInstanceAs (Decidable (_ = x))

end PlacementTree.Decimal
