import PlacementTree.Json.Reader
import PlacementTree.Json.Writer
import PlacementTree.Proofs.Decimal.ReadBack

/-!
# Numbers in JSON are read as they are spelled

A number in JSON is a sign, digits, perhaps a point with digits after it and perhaps a power of ten: a `Spelling`. Where it stands in a
text it is found again, as long as nothing follows that would go on with it (`Spelling.readValue_text`). Whole numbers are written without
point and power (`Spelling.ofInt`), doubles with at least one of them (`exists_spelling_write`).
-/

namespace PlacementTree.Json

open Decimal

/-! ## Spellings -/

/-- The digits after the point, and the point if there are any. -/
def fractionText (digits : List Char) : List Char := if digits.isEmpty then [] else '.' :: digits

/-- A power of ten, if there is one. -/
def exponentText : Option Int → List Char
  | none => []
  | some e => 'e' :: (signText (decide (e < 0)) ++ Nat.toDigits 10 e.natAbs)

/-- A number as JSON spells it. -/
structure Spelling where
  negative : Bool
  whole : List Char
  fraction : List Char
  exponent : Option Int
  wholeDigits : WholeDigits whole
  fractionDigits : ∀ c ∈ fraction, c.isDigit = true

namespace Spelling

/-- The text after the sign. -/
def body (s : Spelling) : List Char := s.whole ++ (fractionText s.fraction ++ exponentText s.exponent)

def text (s : Spelling) : List Char := signText s.negative ++ s.body

/-- The numeral that is spelled. -/
def numeral (s : Spelling) : Numeral :=
  { negative := s.negative, whole := s.whole, fraction := s.fraction, exponent := s.exponent.getD 0 }

/-- Neither with a point nor with a power of ten. -/
def isWhole (s : Spelling) : Bool := s.fraction.isEmpty && s.exponent.isNone

/-- What a spelling stands for. -/
def datum (s : Spelling) : Datum := if s.isWhole then wholeDatum s.negative s.whole else doubleDatum s.numeral.value

end Spelling

/-! ## Reading them -/

/-- What goes on with a number. -/
def continues (c : Char) : Bool := c.isDigit || c == '.' || c == 'e' || c == 'E'

/-- A text in front of which a number ends. -/
def Ends (rest : List Char) : Prop := ∀ c, rest.head? = some c → continues c = false

theorem ends_nil : Ends [] := by
  rintro c ⟨⟩

theorem ends_cons {c : Char} (h : continues c = false) (rest : List Char) : Ends (c :: rest) := by
  rintro d ⟨⟩
  exact h

theorem isDigit_eq_false_of_continues {c : Char} (h : continues c = false) : c.isDigit = false := by
  simp only [continues, Bool.or_eq_false_iff] at h
  exact h.1.1.1

theorem ne_of_continues {c d : Char} (h : continues c = false) (hd : continues d = true) : c ≠ d := by
  rintro rfl
  rw [h] at hd
  cases hd

variable {rest : List Char}

theorem readExponent_exponentText (hrest : Ends rest) (exponent : Option Int) :
    readExponent (exponentText exponent ++ rest) = some (exponent, rest) := by
  cases exponent with
  | none =>
    cases rest with
    | nil => rfl
    | cons c rest =>
      have hc := hrest c rfl
      simp [exponentText, readExponent, ne_of_continues hc (d := 'e') (by decide), ne_of_continues hc (d := 'E') (by decide)]
  | some e =>
    have hdigits := wholeDigits_toDigits e.natAbs
    obtain ⟨c, cs, hcs⟩ := List.exists_cons_of_ne_nil hdigits.ne_nil
    have hsign : splitSign (signText (decide (e < 0)) ++ (Nat.toDigits 10 e.natAbs ++ rest)) =
        (decide (e < 0), Nat.toDigits 10 e.natAbs ++ rest) := by
      rw [hcs]
      exact splitSign_signText _ (hdigits.isDigit c (by simp [hcs])) _
    have hsplit := splitDigits_append hdigits.isDigit fun c hc => isDigit_eq_false_of_continues (hrest c hc)
    have hvalue : (if e < 0 then -(e.natAbs : Int) else (e.natAbs : Int)) = e := by omega
    simpa [exponentText, readExponent, hsign, hsplit, ofDigits, Nat.ofDigitChars_ten_toDigits] using hvalue

/-- The first character of a power of ten, or of what follows a number. -/
theorem head?_exponentText_append (hrest : Ends rest) (exponent : Option Int) {c : Char}
    (hc : (exponentText exponent ++ rest).head? = some c) : c.isDigit = false ∧ c ≠ '.' := by
  cases exponent with
  | none => exact ⟨isDigit_eq_false_of_continues (hrest c hc), ne_of_continues (hrest c hc) (by decide)⟩
  | some e =>
    cases hc
    decide

theorem readFraction_fractionText {digits : List Char} (h : ∀ c ∈ digits, c.isDigit = true)
    (hrest : ∀ c, rest.head? = some c → c.isDigit = false ∧ c ≠ '.') : readFraction (fractionText digits ++ rest) = some (digits, rest) := by
  cases digits with
  | nil =>
    cases rest with
    | nil => rfl
    | cons c rest => simp [fractionText, readFraction, (hrest c rfl).2]
  | cons c digits =>
    have hsplit := splitDigits_append h fun c hc => (hrest c hc).1
    rw [List.cons_append] at hsplit
    simp [fractionText, readFraction, hsplit]

namespace Spelling

variable (s : Spelling)

/-- A spelling is read up to its end. -/
theorem readNumber_body (hrest : Ends rest) : readNumber s.negative (s.body ++ rest) = some (s.datum, rest) := by
  have hexponent := readExponent_exponentText hrest s.exponent
  have hfraction := readFraction_fractionText s.fractionDigits fun c => head?_exponentText_append hrest s.exponent
  have hwhole : splitDigits (s.whole ++ (fractionText s.fraction ++ (exponentText s.exponent ++ rest))) =
      (s.whole, fractionText s.fraction ++ (exponentText s.exponent ++ rest)) := by
    apply splitDigits_append s.wholeDigits.isDigit
    intro c hc
    cases hdigits : s.fraction with
    | nil =>
      rw [hdigits] at hc
      exact (head?_exponentText_append hrest s.exponent hc).1
    | cons d digits =>
      rw [hdigits] at hc
      cases hc
      decide
  have hshape : (s.whole.isEmpty || (s.whole.head? == some '0' && s.whole.length != 1)) = false := by
    simpa [s.wholeDigits.ne_nil] using s.wholeDigits.alone_of_zero
  have hparts : (s.fraction.isEmpty && s.exponent.isNone) = s.isWhole := rfl
  simp only [body, List.append_assoc, readNumber, hwhole, hshape, Bool.false_eq_true, if_false, Option.bind_eq_bind, Option.bind_some,
    hfraction, hexponent, hparts, datum]
  cases s.isWhole <;> rfl

/-- A spelling is a value. -/
theorem readValue_text (hrest : Ends rest) (fuel : Nat) : readValue (fuel + 1) (s.text ++ rest) = some (s.datum, rest) := by
  have hbody := s.readNumber_body hrest
  cases hnegative : s.negative with
  | true =>
    rw [hnegative] at hbody
    simp [text, signText, hnegative, readValue, hbody]
  | false =>
    rw [hnegative] at hbody
    obtain ⟨c, cs, hcs⟩ := List.exists_cons_of_ne_nil s.wholeDigits.ne_nil
    have hdigit : c.isDigit = true := s.wholeDigits.isDigit c (by simp [hcs])
    simp only [text, signText, hnegative, body, hcs, Bool.false_eq_true, if_false, List.nil_append, List.cons_append] at hbody ⊢
    rw [← hbody]
    unfold readValue
    split <;> simp_all

/-! ## Whole numbers -/

/-- A whole number in its digits. -/
def ofInt (n : Int) : Spelling where
  negative := decide (n < 0)
  whole := Nat.toDigits 10 n.natAbs
  fraction := []
  exponent := none
  wholeDigits := wholeDigits_toDigits n.natAbs
  fractionDigits := by simp

/-- The text of a whole number is a sign and its digits. -/
theorem toList_toString (n : Int) : (toString n).toList = signText (decide (n < 0)) ++ Nat.toDigits 10 n.natAbs := by
  rw [Int.toString_eq_repr, Int.repr_eq_if]
  by_cases h : 0 ≤ n
  · have hsign : decide (n < 0) = false := by simpa using h
    have habs : n.toNat = n.natAbs := by omega
    simp [h, hsign, habs, signText, Nat.repr_eq_ofList_toDigits]
  · have hsign : decide (n < 0) = true := by simpa using h
    have habs : (-n).toNat = n.natAbs := by omega
    simp [h, hsign, habs, signText, Nat.repr_eq_ofList_toDigits]

theorem exponentText_some (e : Int) : exponentText (some e) = 'e' :: (toString e).toList := by
  rw [toList_toString]
  rfl

theorem text_ofInt (n : Int) : (ofInt n).text = (toString n).toList := by
  rw [toList_toString]
  simp [ofInt, text, body, fractionText, exponentText]

/-- A whole number is read as such if it fits 64 bits, with a sign if it is negative. -/
theorem datum_ofInt {n : Int} (hlow : -0x8000000000000000 ≤ n) (hhigh : n < UInt64.size) : (ofInt n).datum = .int n := by
  have hdigits : Decimal.ofDigits (Nat.toDigits 10 n.natAbs) = n.natAbs := Nat.ofDigitChars_ten_toDigits
  by_cases hn : n < 0
  · have hrange : 0 < n.natAbs ∧ n.natAbs ≤ 0x8000000000000000 := by omega
    have hvalue : -Int.ofNat n.natAbs = n := by
      rw [Int.ofNat_eq_natCast]
      omega
    have hsign : decide (n < 0) = true := decide_eq_true hn
    unfold datum wholeDatum isWhole ofInt
    dsimp only
    rw [hdigits, hsign, decide_eq_true hrange, hvalue]
    rfl
  · have hrange : n.natAbs < UInt64.size := by omega
    have hvalue : Int.ofNat n.natAbs = n := by
      rw [Int.ofNat_eq_natCast]
      omega
    have hsign : decide (n < 0) = false := decide_eq_false hn
    unfold datum wholeDatum isWhole ofInt
    dsimp only
    rw [hdigits, hsign, decide_eq_true hrange, hvalue]
    rfl

/-! ## Doubles -/

/-- A numeral with a point in it. -/
def ofPlain (n : Numeral) (h : n.Plain) : Spelling where
  negative := n.negative
  whole := n.whole
  fraction := n.fraction
  exponent := none
  wholeDigits := h.whole
  fractionDigits := h.fraction_isDigit

theorem text_ofPlain {n : Numeral} (h : n.Plain) : (ofPlain n h).text = n.text := by
  simp [ofPlain, text, body, fractionText, exponentText, Numeral.text, h.fraction_ne_nil]

theorem numeral_ofPlain {n : Numeral} (h : n.Plain) : (ofPlain n h).numeral = n := by
  obtain ⟨negative, whole, fraction, exponent⟩ := n
  have hexponent : 0 = exponent := h.exponent_eq.symm
  simp only [ofPlain, numeral, hexponent, Option.getD_none]

/-- The digits of a number with a point after the first of them and a power of ten. -/
def scientific (negative : Bool) (n : Nat) (point : Int) : Spelling where
  negative
  whole := (Nat.toDigits 10 n).take 1
  fraction := (Nat.toDigits 10 n).drop 1
  exponent := some (point - 1)
  wholeDigits :=
    { ne_nil := by simp
      isDigit := fun _ hc => isDigit_of_mem_toDigits (List.mem_of_mem_take hc)
      alone_of_zero := fun _ => by
        have : 0 < (Nat.toDigits 10 n).length := Nat.length_toDigits_pos
        rw [List.length_take]
        omega }
  fractionDigits := fun _ hc => isDigit_of_mem_toDigits (List.mem_of_mem_drop hc)

theorem text_scientific (negative : Bool) (n : Nat) (point : Int) :
    (scientific negative n point).text = signText negative ++ (scientificText (Nat.toDigits 10 n) point).toList := by
  have htext (digits : List Char) (hne : digits ≠ []) : digits.take 1 ++ (fractionText (digits.drop 1) ++ exponentText (some (point - 1))) =
      (scientificText digits point).toList := by
    rcases digits with _ | ⟨first, _ | ⟨second, digits⟩⟩
    · exact absurd rfl hne
    · simp [fractionText, exponentText_some, scientificText]
    · simp [fractionText, exponentText_some, scientificText]
  rw [← htext _ Nat.toDigits_ne_nil]
  rfl

theorem rat_scientific (negative : Bool) (n : Nat) (point : Int) :
    (scientific negative n point).numeral.rat = n * 10 ^ (point - (Nat.toDigits 10 n).length) := by
  have hpos : 0 < (Nat.toDigits 10 n).length := Nat.length_toDigits_pos
  have hlength : point - 1 - ((Nat.toDigits 10 n).drop 1).length = point - (Nat.toDigits 10 n).length := by
    rw [List.length_drop]
    omega
  have hvalue : Nat.ofDigitChars 10 (Nat.toDigits 10 n) 0 = n := Nat.ofDigitChars_ten_toDigits
  simp only [Numeral.rat, numeral, scientific, List.take_append_drop, ofDigits, hvalue, Option.getD_some, hlength]

end Spelling

/-- A decimal other than zero is written with a point or a power of ten. -/
theorem exists_spelling_writeDecimal (negative : Bool) {d : Scaled} (h : d.digits ≠ 0) :
    ∃ s : Spelling, s.text = signText negative ++ (Style.json.writeDecimal d).toList ∧ s.isWhole = false ∧ s.negative = negative ∧
      s.numeral.rat = d.rat := by
  have hrat : d.rat = d.digits * 10 ^ ((Nat.toDigits 10 d.digits).length + d.exponent - (Nat.toDigits 10 d.digits).length) := by
    rw [Scaled.rat, add_sub_cancel_left]
  obtain ⟨n, hn, htext, hsign, hvalue⟩ :=
    exists_plain_positionalText negative h (Int.ofNat (Nat.toDigits 10 d.digits).length + d.exponent)
  simp only [Style.writeDecimal, Style.json]
  split
  · refine ⟨.ofPlain n hn, ?_, ?_, hsign, ?_⟩
    · rw [Spelling.text_ofPlain, htext]
    · simp [Spelling.isWhole, Spelling.ofPlain, hn.fraction_ne_nil]
    · rw [Spelling.numeral_ofPlain, hvalue, hrat]
      rfl
  · refine ⟨.scientific negative d.digits _, Spelling.text_scientific _ _ _, ?_, rfl, ?_⟩
    · simp [Spelling.isWhole, Spelling.scientific]
    · rw [Spelling.rat_scientific, hrat]
      rfl

/-- The text of a finite double: a sign, and zero or a decimal. -/
theorem toList_write {x : Float} (h : x.isFinite = true) :
    (Style.json.write x).toList = signText (⟨x.toBits⟩ : Binary64).negative ++
      if (⟨x.toBits⟩ : Binary64).magnitude = 0 then ['0', '.', '0']
      else (Style.json.writeDecimal (shortest .toEven (⟨x.toBits⟩ : Binary64).magnitude)).toList := by
  obtain ⟨q, hq⟩ := Binary64.isFinite_iff.mp h
  have hsign (negative : Bool) : (if negative = true then "-" else "").toList = signText negative := by cases negative <;> rfl
  simp only [Style.write, hq.isNaN_eq, isInf_eq_false h, Bool.false_eq_true, if_false]
  split
  · rw [String.toList_append, String.toList_append, hsign, List.append_assoc]
    rfl
  · rw [String.toList_append, hsign]
    rfl

/-- A finite double is written with a point or a power of ten, and stands in its text. -/
theorem exists_spelling_write {x : Float} (h : x.isFinite = true) :
    ∃ s : Spelling, s.text = (Style.json.write x).toList ∧ s.datum = .float x := by
  have hdatum {s : Spelling} (hwhole : s.isWhole = false) (hnegative : s.negative = (⟨x.toBits⟩ : Binary64).negative)
      (hrat : s.numeral.rat = Style.json.rat ⟨x.toBits⟩) : s.datum = .float x := by
    have hbits : (⟨x.toBits⟩ : Binary64).toFloat = x := Float.ofBits_toBits x
    have hvalue : s.numeral.value = x := (Numeral.value_eq (isFinite_bits h) hnegative hrat).trans hbits
    rw [Spelling.datum, hwhole, hvalue, doubleDatum, isInf_eq_false h]
    rfl
  rw [toList_write h]
  split
  · rename_i hzero
    refine ⟨⟨(⟨x.toBits⟩ : Binary64).negative, ['0'], ['0'], none, ⟨by simp, by simp, fun _ => rfl⟩, by simp⟩, rfl, hdatum rfl rfl ?_⟩
    rw [Style.rat, if_pos hzero]
    exact zero_mul _
  · rename_i hzero
    obtain ⟨s, htext, hwhole, hnegative, hrat⟩ :=
      exists_spelling_writeDecimal (⟨x.toBits⟩ : Binary64).negative (shortest_digits_pos .toEven hzero).ne'
    refine ⟨s, htext, hdatum hwhole hnegative ?_⟩
    rw [hrat, Style.rat, if_neg hzero]
    rfl

end PlacementTree.Json
