import PlacementTree.Proofs.Decimal.Written
import PlacementTree.Toml.Scalar

/-!
# Written numbers are read as they were

A bare value is first tried as a truth value, then as a moment, then as a number in another base, and last as a decimal number. A
written number passes all of these by: a moment has a colon in it or a dash after its first character (`Moment.read_eq_none`), and the
marks of other bases are letters. So `scalar?_toDigits` finds every whole number that has a notation, and `scalar?_write` every double,
also those that are not finite.
-/

namespace PlacementTree.Toml

open Decimal

/-! ## What is no moment -/

theorem Date.read_eq_none {cs : List Char} (h : '-' ∉ cs.tail) : Date.read cs = none := by
  unfold Date.read
  split
  · simp at h
  · rfl

theorem twoDigits?_eq_some {low high n : Nat} {cs rest : List Char} (h : twoDigits? low high cs = some (n, rest)) :
    ∃ a b, cs = a :: b :: rest := by
  unfold twoDigits? at h
  split at h
  · split at h
    · dsimp only at h
      split at h
      · cases h
        exact ⟨_, _, rfl⟩
      · cases h
    · cases h
  · cases h

theorem TimeOfDay.read_eq_none {cs : List Char} (h : ':' ∉ cs) : TimeOfDay.read cs = none := by
  unfold TimeOfDay.read
  cases hhour : twoDigits? 0 23 cs with
  | none => rfl
  | some found =>
    obtain ⟨a, b, rfl⟩ := twoDigits?_eq_some hhour
    cases hrest : found.2 with
    | nil => simp [hrest, after?]
    | cons c rest =>
      have hc : c ≠ ':' := by
        rintro rfl
        simp [hrest] at h
      simp [hrest, after?, hc]

/-- A moment has a colon in it, or a dash after its first character. -/
theorem Moment.read_eq_none {cs : List Char} (hdash : '-' ∉ cs.tail) (hcolon : ':' ∉ cs) : Moment.read cs = none := by
  unfold Moment.read
  rw [Date.read_eq_none hdash]
  dsimp only
  rw [TimeOfDay.read_eq_none hcolon]

/-! ## Decimal numbers -/

theorem mem_of_mem_splitSign {c : Char} {cs : List Char} (h : c ∈ (splitSign cs).2) : c ∈ cs := by
  unfold splitSign at h
  split at h
  · exact List.mem_cons_of_mem _ h
  · exact List.mem_cons_of_mem _ h
  · exact h

/-- Without the letters of the other notations a number is decimal. -/
theorem number?_eq_decimal? {cs : List Char} (h : ∀ d ∈ ['x', 'o', 'b', 'n'], d ∉ cs) :
    number? cs = decimal? (splitSign cs).1 (splitSign cs).2 := by
  unfold number?
  split
  · exact absurd (h 'x' (by simp)) (by simp)
  · exact absurd (h 'o' (by simp)) (by simp)
  · exact absurd (h 'b' (by simp)) (by simp)
  · have hn : 'n' ∉ (splitSign cs).2 := fun hmem => h 'n' (by simp) (mem_of_mem_splitSign hmem)
    dsimp only
    split
    · rename_i hinf
      simp [hinf] at hn
    · rename_i hnan
      simp [hnan] at hn
    · rfl

/-- What is no truth value and no moment is a number. -/
theorem scalar?_eq_number? {cs : List Char} (hletter : 'e' ∉ cs) (hdash : '-' ∉ cs.tail) (hcolon : ':' ∉ cs) :
    scalar? cs = number? cs := by
  unfold scalar?
  split
  · simp at hletter
  · simp at hletter
  · rw [Moment.read_eq_none hdash hcolon]

/-- A character of a decimal number after its sign. -/
def isDecimalChar (c : Char) : Bool := c.isDigit || c == '.'

theorem isDecimalChar_of_isDigit {c : Char} (h : c.isDigit = true) : isDecimalChar c = true := by simp [isDecimalChar, h]

/-- What starts with a digit after its sign and goes on with digits and points is a decimal number. -/
theorem scalar?_eq_decimal? (negative : Bool) {c : Char} {cs : List Char} (hc : c.isDigit = true)
    (hcs : ∀ d ∈ cs, isDecimalChar d = true) : scalar? (signText negative ++ c :: cs) = decimal? negative (c :: cs) := by
  have hall : ∀ d ∈ c :: cs, isDecimalChar d = true := List.forall_mem_cons.mpr ⟨isDecimalChar_of_isDigit hc, hcs⟩
  have habsent (d : Char) (hd : isDecimalChar d = false) : d ∉ c :: cs := fun hmem => by simp [hall d hmem] at hd
  have hsigned (d : Char) (hdash : d ≠ '-') (hd : isDecimalChar d = false) : d ∉ signText negative ++ c :: cs := by
    have := habsent d hd
    cases negative <;> simp_all [signText]
  have hdash : '-' ∉ (signText negative ++ c :: cs).tail := by
    have := habsent '-' (by decide)
    cases negative <;> simp_all [signText]
  rw [scalar?_eq_number? (hsigned 'e' (by decide) (by decide)) hdash (hsigned ':' (by decide) (by decide)), number?_eq_decimal?,
    splitSign_signText negative hc]
  simp only [List.forall_mem_cons, List.not_mem_nil, false_implies, implies_true, and_true]
  exact ⟨hsigned _ (by decide) (by decide), hsigned _ (by decide) (by decide), hsigned _ (by decide) (by decide),
    hsigned _ (by decide) (by decide)⟩

/-! ## Runs of digits -/

/-- Digits in a row are not grouped. -/
theorem ungrouped?_of_isDigit {digits : List Char} (hne : digits ≠ []) (h : ∀ c ∈ digits, c.isDigit = true) :
    ungrouped? Char.isDigit digits = some digits := by
  fun_induction ungrouped? Char.isDigit digits with
  | case1 => exact absurd rfl hne
  | case2 c hc => rfl
  | case3 c hc => exact absurd (h c (by simp)) hc
  | case4 c rest => exact absurd (h '_' (by simp)) (by decide)
  | case5 c rest => exact absurd (h '_' (by simp)) (by decide)
  | case6 c rest hnil _ hc ih =>
    rw [ih (fun hnil' => hnil hnil') (fun d hd => h d (List.mem_cons_of_mem _ hd))]
    rfl
  | case7 c rest hnil _ hc => exact absurd (h c (by simp)) hc

theorem wholeDigits?_eq_some {digits : List Char} (h : WholeDigits digits) : wholeDigits? digits = some digits := by
  simpa [wholeDigits?, ungrouped?_of_isDigit h.ne_nil h.isDigit] using h.alone_of_zero

theorem takeWhile_digits {digits : List Char} (h : ∀ c ∈ digits, c.isDigit = true) : digits.takeWhile isDigitOrUnderscore = digits :=
  List.takeWhile_eq_self_iff.mpr fun c hc => by simp [isDigitOrUnderscore, h c hc]

theorem dropWhile_digits {digits : List Char} (h : ∀ c ∈ digits, c.isDigit = true) : digits.dropWhile isDigitOrUnderscore = [] :=
  List.dropWhile_eq_nil_iff.mpr fun c hc => by simp [isDigitOrUnderscore, h c hc]

/-- Digits alone are a whole number. -/
theorem decimal?_digits (negative : Bool) {digits : List Char} (h : WholeDigits digits) :
    decimal? negative digits = wholeDatum? negative (ofDigits digits) := by
  simp [decimal?, takeWhile_digits h.isDigit, dropWhile_digits h.isDigit, wholeDigits?_eq_some h]

/-- Digits with a point among them are a double. -/
theorem decimal?_plain {n : Numeral} (h : n.Plain) : decimal? n.negative (n.whole ++ '.' :: n.fraction) = doubleDatum? n := by
  obtain ⟨negative, whole, fraction, exponent⟩ := n
  obtain ⟨hwhole, hne, hfraction, hexponent⟩ := h
  dsimp only at hwhole hne hfraction hexponent ⊢
  subst hexponent
  have hdigits : ∀ c ∈ whole, isDigitOrUnderscore c = true := fun c hc => by simp [isDigitOrUnderscore, hwhole.isDigit c hc]
  have hpoint : isDigitOrUnderscore '.' = false := by decide
  simp [decimal?, List.takeWhile_append_of_pos hdigits, List.dropWhile_append_of_pos hdigits, hpoint, takeWhile_digits hfraction,
    dropWhile_digits hfraction, wholeDigits?_eq_some hwhole, ungrouped?_of_isDigit hne hfraction]

/-! ## Written numbers -/

/-- Every whole number below the limit is read as it is written. -/
theorem scalar?_toDigits {n : Nat} (h : n < signedLimit) : scalar? (Nat.toDigits 10 n) = some (.int n) := by
  have hdigits := wholeDigits_toDigits n
  obtain ⟨c, cs, hcs⟩ := List.exists_cons_of_ne_nil hdigits.ne_nil
  have hc : c.isDigit = true := hdigits.isDigit c (by simp [hcs])
  have hrest : ∀ d ∈ cs, isDecimalChar d = true := fun d hd => isDecimalChar_of_isDigit (hdigits.isDigit d (by simp [hcs, hd]))
  have hscalar : scalar? (Nat.toDigits 10 n) = decimal? false (Nat.toDigits 10 n) := by
    rw [hcs]
    exact scalar?_eq_decimal? false hc hrest
  rw [hscalar, decimal?_digits false hdigits, ofDigits, Nat.ofDigitChars_ten_toDigits]
  simp [wholeDatum?, h]

/-- Every plain numeral of a finite double is read as the double. -/
theorem scalar?_text {n : Numeral} (h : n.Plain) (hfinite : n.value.isInf = false) : scalar? n.text = some (.float n.value) := by
  obtain ⟨c, cs, hcs⟩ := List.exists_cons_of_ne_nil h.whole.ne_nil
  have hc : c.isDigit = true := h.whole.isDigit c (by simp [hcs])
  have hrest : ∀ d ∈ cs ++ '.' :: n.fraction, isDecimalChar d = true := by
    intro d hd
    rcases List.mem_append.mp hd with hd | hd
    · exact isDecimalChar_of_isDigit (h.whole.isDigit d (by simp [hcs, hd]))
    · rcases List.mem_cons.mp hd with rfl | hd
      · rfl
      · exact isDecimalChar_of_isDigit (h.fraction_isDigit d hd)
  have hscalar := scalar?_eq_decimal? n.negative hc hrest
  rw [← List.cons_append, ← hcs, decimal?_plain h] at hscalar
  unfold Numeral.text
  rw [hscalar]
  simp [doubleDatum?, hfinite]

theorem scalar?_infinity (negative : Bool) : scalar? (signText negative ++ ['i', 'n', 'f']) = some (.float (infinity negative)) := by
  cases negative <;> rfl

/-- Every double is read as it is written, if its numeral stands for it. -/
theorem scalar?_write {x : Float} (h : x.isFinite = true → ReadsBack x) :
    scalar? (Style.configuration.write x).toList = some (.float x) := by
  rcases write_configuration_cases x with ⟨hfinite, n, hn, htext, -⟩ | ⟨rfl, htext⟩ | ⟨negative, rfl, htext⟩
  · have hvalue : n.value = x := by
      have := h hfinite
      rwa [ReadsBack, htext, hn.ofText_text] at this
    rw [htext, ← hvalue]
    apply scalar?_text hn
    rw [hvalue]
    exact isInf_eq_false hfinite
  · rw [htext]
    rfl
  · rw [htext]
    exact scalar?_infinity negative

end PlacementTree.Toml
