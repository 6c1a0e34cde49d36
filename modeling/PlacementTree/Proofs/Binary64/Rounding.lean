import PlacementTree.Proofs.Binary64.Nearest

/-!
# Results of operations are rounded to the nearest double

An operation first finds the exact result as a mantissa and an exponent and then rounds it. The mantissa is shifted until its last place is
that of the result, while two bits keep what falls off it (`Represents`); they decide whether it is rounded up, and if that gives a place
too many it is shifted once more. `rounded_roundWithAccuracy` and `rounded_normalize` say what comes out: the nearest number of the grid,
with all its places unless the last place is the lowest of all (`Canonical`).
-/

namespace PlacementTree.Binary64

open Float.Model Float.Model.UnpackedFloat

/-! ## Unpacked doubles as rational numbers -/

/-- A number with a sign. -/
def signed : Sign → ℚ → ℚ
  | .negative, q => -q
  | .positive, q => q

/-- The number that an unpacked double stands for, if it stands for one. -/
def ratOf? : UnpackedFloat → Option ℚ
  | .zero _ => some 0
  | .finite sign mantissa exponent _ => some (signed sign (mantissa * 2 ^ exponent))
  | .infinity _ | .notANumber => none

/-- A finite number has all its places, unless the last place is the lowest of all. Its exponent may be too large for a double. -/
def Canonical : UnpackedFloat → Prop
  | .finite _ mantissa exponent _ => mantissa < 2 ^ 53 ∧ -1074 ≤ exponent ∧ (2 ^ 52 ≤ mantissa ∨ exponent = -1074)
  | _ => True

/-- The nearest number of the grid, in canonical form. -/
structure Rounded (q : ℚ) (u : UnpackedFloat) : Prop where
  canonical : Canonical u
  nearest : ∃ y, ratOf? u = some y ∧ Nearest q y

variable {sign : Sign} {m n : ℕ} {e : ℤ} {q x y : ℚ}

@[simp] theorem signed_zero : signed sign 0 = 0 := by
  cases sign
  · exact neg_zero
  · rfl

/-- A number is a zero, or has a mantissa. -/
theorem ratOf?_cases {u : UnpackedFloat} (h : ratOf? u = some q) :
    (∃ sign, u = .zero sign ∧ q = 0) ∨ ∃ sign m e hm, u = .finite sign m e hm ∧ q = signed sign (m * 2 ^ e) := by
  cases u with
  | infinity sign => cases h
  | notANumber => cases h
  | zero sign => exact .inl ⟨sign, rfl, (Option.some.inj h).symm⟩
  | finite sign m e hm => exact .inr ⟨sign, m, e, hm, rfl, (Option.some.inj h).symm⟩

theorem Nearest.signed (h : Nearest q y) (sign : Sign) : Nearest (signed sign q) (signed sign y) := by
  cases sign
  · exact h.neg
  · exact h

/-! ## The bits kept of what falls off -/

/-- The mantissa is what is left of `x` without its fraction: the first bit says whether that is at least one half, the second whether
anything is left besides. -/
def Represents : ExtendedMantissa → ℚ → Prop
  | ⟨m, false, false⟩, x => x = m
  | ⟨m, false, true⟩, x => m < x ∧ x < m + 1 / 2
  | ⟨m, true, false⟩, x => x = m + 1 / 2
  | ⟨m, true, true⟩, x => m + 1 / 2 < x ∧ x < m + 1

variable {em : ExtendedMantissa}

theorem represents_shiftRightOne (h : Represents em x) : Represents em.shiftRightOne (x / 2) := by
  obtain ⟨m, round, sticky⟩ := em
  rcases Nat.even_or_odd' m with ⟨k, rfl | rfl⟩ <;> cases round <;> cases sticky <;>
    simp [Represents, ExtendedMantissa.shiftRightOne, Nat.add_mod, Nat.mul_add_div] at h ⊢ <;> grind

/-- Shifting the mantissa halves the number as often. -/
theorem represents_shiftRight (h : Represents em x) (k : ℕ) : Represents (em >>> k) (x / 2 ^ k) := by
  show Represents (k.repeat ExtendedMantissa.shiftRightOne em) _
  induction k with
  | zero => simpa [Nat.repeat] using h
  | succ k ih =>
    rw [pow_succ, div_mul_eq_div_div]
    exact represents_shiftRightOne ih

/-- Rounding moves a number by one half at most. -/
theorem Represents.abs_roundedMantissa_sub_le (h : Represents em x) : |(em.roundedMantissa : ℚ) - x| ≤ 1 / 2 := by
  obtain ⟨m, round, sticky⟩ := em
  rw [abs_le]
  have heven : ((m % 2 : ℕ) : ℚ) ≤ 1 := by exact_mod_cast Nat.le_of_lt_succ (Nat.mod_lt m two_pos)
  have hzero : (0 : ℚ) ≤ ((m % 2 : ℕ) : ℚ) := Nat.cast_nonneg _
  cases round <;> cases sticky <;>
    simp only [Represents, ExtendedMantissa.roundedMantissa, ExtendedMantissa.accuracy, Accuracy.roundToNearestEven] at h ⊢ <;>
    push_cast <;> constructor <;> linarith

/-! ## Rounding a mantissa -/

/-- The last place of a result: the mantissa gets all its places, but none below the lowest. -/
theorem targetExponent_eq : Format.binary64.targetExponent (totalExponent m e) = max (m.log2 + e - 52) (-1074) := by
  show max ((m.log2 : ℤ) + 1 + e - 53) (-1074) = _
  congr 1
  ring

/-- The mantissa is shifted by as many places as it is short of the last place. -/
theorem shiftToTargetExponent_eq (accuracy : Accuracy) {k : ℕ} (hk : (max (m.log2 + e - 52) (-1074) - e).toNat = k) :
    shiftToTargetExponent Format.binary64 m e accuracy = (ExtendedMantissa.ofMantissaAndAccuracy m accuracy >>> k, e + k) := by
  subst hk
  rw [← targetExponent_eq]
  rfl

/-- A number as a multiple of the last place that it gets, which is not below its own. -/
theorem exists_represents {accuracy : Accuracy} (hq : Represents (.ofMantissaAndAccuracy m accuracy) q)
    (he : e ≤ max (m.log2 + e - 52) (-1074)) :
    ∃ em x, shiftToTargetExponent Format.binary64 m e accuracy = (em, max (m.log2 + e - 52) (-1074)) ∧ Represents em x ∧
      q * 2 ^ e = x * 2 ^ max (m.log2 + e - 52) (-1074) := by
  obtain ⟨k, hk⟩ := Int.eq_ofNat_of_zero_le (sub_nonneg.mpr he)
  have hplace : max (m.log2 + e - 52) (-1074) = e + k := by omega
  refine ⟨_, _, ?_, represents_shiftRight hq k, ?_⟩
  · rw [shiftToTargetExponent_eq accuracy (k := k) (by omega), hplace]
  · rw [hplace, zpow_add₀ two_ne_zero, zpow_natCast]
    field_simp

/-- A mantissa with at most one place too many gets a canonical form for the same number. -/
theorem exists_canonical (hle : n ≤ 2 ^ 53) (hlow : -1074 ≤ e) (hfull : 2 ^ 52 ≤ n ∨ e = -1074) :
    ∃ em e', shiftToTargetExponent Format.binary64 n e .exact = (em, e') ∧ (em.mantissa : ℚ) * 2 ^ e' = n * 2 ^ e ∧
      em.mantissa < 2 ^ 53 ∧ -1074 ≤ e' ∧ (2 ^ 52 ≤ em.mantissa ∨ e' = -1074) := by
  rcases hle.lt_or_eq with hlt | rfl
  · have hlog : n.log2 ≤ 52 := by
      rcases Nat.eq_zero_or_pos n with rfl | hpos
      · decide
      · exact Nat.le_of_lt_succ ((Nat.log2_lt hpos.ne').mpr hlt)
    have hstay := shiftToTargetExponent_eq .exact (m := n) (e := e) (k := 0) (by omega)
    rw [Int.ofNat_zero, add_zero] at hstay
    exact ⟨_, _, hstay, rfl, hlt, hlow, hfull⟩
  · have hlog : (2 ^ 53).log2 = 53 := Nat.log2_two_pow
    have hshift := shiftToTargetExponent_eq .exact (m := 2 ^ 53) (e := e) (k := 1) (by omega)
    refine ⟨_, _, hshift, ?_, (by decide : (2 ^ 53) / 2 < 2 ^ 53), by omega, .inl (by decide : 2 ^ 52 ≤ 2 ^ 53 / 2)⟩
    show (((2 ^ 53) / 2 : ℕ) : ℚ) * 2 ^ (e + 1) = _
    rw [zpow_add_one₀ two_ne_zero]
    norm_num
    ring

/-- What is below the next place is rounded to at most that, and has all its places unless the last place is the lowest of all. -/
theorem Represents.roundedMantissa_bounds (h : Represents em x) (hle : x < 2 ^ 53) :
    em.roundedMantissa ≤ 2 ^ 53 ∧ (2 ^ 52 ≤ x → 2 ^ 52 ≤ em.roundedMantissa) := by
  obtain ⟨hlower, hupper⟩ := abs_le.mp h.abs_roundedMantissa_sub_le
  constructor
  · have : (em.roundedMantissa : ℚ) < 2 ^ 53 + 1 := by linarith
    exact Nat.le_of_lt_succ (by exact_mod_cast this)
  · intro hfull
    have : (2 : ℚ) ^ 52 < em.roundedMantissa + 1 := by linarith
    exact Nat.le_of_lt_succ (by exact_mod_cast this)

/-- What is left without the fraction is the mantissa. -/
theorem Represents.bounds (h : Represents em x) : em.mantissa ≤ x ∧ x < em.mantissa + 1 := by
  obtain ⟨m, round, sticky⟩ := em
  cases round <;> cases sticky <;> simp only [Represents] at h ⊢ <;> constructor <;> linarith

@[simp] theorem mantissa_ofMantissaAndAccuracy (accuracy : Accuracy) :
    (ExtendedMantissa.ofMantissaAndAccuracy m accuracy).mantissa = m := by
  rcases accuracy with _ | (_ | _ | _) <;> rfl

/-- In its last place a number has at most 53 places, and no less unless that is the lowest of all. -/
theorem scaled_bounds (hlower : m ≤ q) (hupper : q < m + 1) {place : ℤ} (hplace : place = max (m.log2 + e - 52) (-1074)) (he : e ≤ place)
    (hvalue : q * 2 ^ e = x * 2 ^ place) : x < 2 ^ 53 ∧ (2 ^ 52 ≤ x ∨ place = -1074) := by
  have hpos : (0 : ℚ) < 2 ^ place := by positivity
  have hsplit : ∀ k : ℕ, (2 : ℚ) ^ k * 2 ^ place = 2 ^ (k + place) := fun k => by rw [zpow_add₀ two_ne_zero, zpow_natCast]
  constructor
  · have hbelow : q < 2 ^ (m.log2 + 1) := by
      have : (m : ℚ) + 1 ≤ 2 ^ (m.log2 + 1) := by exact_mod_cast Nat.lt_log2_self (n := m)
      linarith
    rw [← mul_lt_mul_iff_of_pos_right hpos, ← hvalue, hsplit]
    calc q * 2 ^ e < 2 ^ (m.log2 + 1) * 2 ^ e := mul_lt_mul_of_pos_right hbelow (by positivity)
      _ = 2 ^ (((m.log2 + 1 : ℕ) : ℤ) + e) := by rw [zpow_add₀ two_ne_zero, zpow_natCast]
      _ ≤ 2 ^ (((53 : ℕ) : ℤ) + place) := zpow_le_zpow_right₀ one_le_two (by omega)
  · rcases Nat.eq_zero_or_pos m with rfl | hm
    · rw [Nat.log2_zero] at hplace
      exact .inr (by omega)
    · rcases le_or_gt place (-1074) with hle | hgt
      · exact .inr (by omega)
      · left
        have habove : (2 : ℚ) ^ m.log2 ≤ q := le_trans (by exact_mod_cast Nat.log2_self_le hm.ne') hlower
        rw [← mul_le_mul_iff_of_pos_right hpos, ← hvalue, hsplit]
        calc (2 : ℚ) ^ (((52 : ℕ) : ℤ) + place) = 2 ^ ((m.log2 : ℤ) + e) := by congr 1; omega
          _ = 2 ^ m.log2 * 2 ^ e := by rw [zpow_add₀ two_ne_zero, zpow_natCast]
          _ ≤ q * 2 ^ e := mul_le_mul_of_nonneg_right habove (by positivity)

/-- Rounding a mantissa whose last place is not above that of the result gives the nearest number of the grid. -/
theorem rounded_roundWithAccuracy {accuracy : Accuracy} (hq : Represents (.ofMantissaAndAccuracy m accuracy) q)
    (he : e ≤ max (m.log2 + e - 52) (-1074)) :
    Rounded (signed sign (q * 2 ^ e)) (roundWithAccuracy Format.binary64 sign m e accuracy) := by
  obtain ⟨em, x, hfirst, hx, hvalue⟩ := exists_represents hq he
  have hbounds := hq.bounds
  rw [mantissa_ofMantissaAndAccuracy] at hbounds
  obtain ⟨hlt, hfull⟩ := scaled_bounds hbounds.1 hbounds.2 rfl he hvalue
  set place := max ((m.log2 : ℤ) + e - 52) (-1074)
  have hlow : -1074 ≤ place := le_max_right _ _
  obtain ⟨hrounded, hrest⟩ := hx.roundedMantissa_bounds hlt
  obtain ⟨em', e', hsecond, hsame, hcanonical⟩ := exists_canonical hrounded hlow (hfull.imp_left hrest)
  have hnearest : Nearest (q * 2 ^ e) (em.roundedMantissa * 2 ^ place) := by
    rw [hvalue]
    have hround : |((em.roundedMantissa : ℤ) : ℚ) - x| ≤ 1 / 2 := hx.abs_roundedMantissa_sub_le
    exact nearest_of_scaled hround (by rw [Nat.abs_cast]; exact_mod_cast hrounded) hlow hfull
  unfold roundWithAccuracy
  rw [hfirst]
  dsimp only
  rw [hsecond]
  dsimp only
  by_cases hzero : em'.mantissa = 0
  · rw [dif_pos hzero]
    rw [hzero, Nat.cast_zero, zero_mul] at hsame
    rw [← hsame] at hnearest
    exact ⟨trivial, _, rfl, by simpa using hnearest.signed sign⟩
  · rw [dif_neg hzero]
    rw [← hsame] at hnearest
    exact ⟨hcanonical, _, rfl, hnearest.signed sign⟩

/-- The same for a mantissa that is exact. -/
theorem rounded_roundWithAccuracy_exact (he : e ≤ max (m.log2 + e - 52) (-1074)) :
    Rounded (signed sign (m * 2 ^ e)) (roundWithAccuracy Format.binary64 sign m e .exact) :=
  rounded_roundWithAccuracy rfl he

theorem log2_mul_two_pow (hm : 0 < m) (k : ℕ) : (m * 2 ^ k).log2 = m.log2 + k := by
  induction k with
  | zero => simp
  | succ k ih => rw [pow_succ', ← mul_assoc, mul_comm m 2, mul_assoc, Nat.log2_two_mul (by positivity), ih, add_assoc]

/-- Rounding any mantissa gives the nearest number of the grid. -/
theorem rounded_round (hm : 0 < m) : Rounded (signed sign (m * 2 ^ e)) (UnpackedFloat.round Format.binary64 sign m e) := by
  rcases le_or_gt e (max (m.log2 + e - 52) (-1074)) with he | he
  · have hstay : decreaseExponent m e (max (m.log2 + e - 52) (-1074)) = (m, e) := by
      have hnone : (e - max (m.log2 + e - 52) (-1074)).toNat = 0 := by omega
      simp [decreaseExponent, hnone]
    simp only [UnpackedFloat.round, targetExponent_eq, hstay]
    exact rounded_roundWithAccuracy_exact he
  · -- The mantissa is short of places: it gets them first, and then its last place is that of the result.
    obtain ⟨k, hk⟩ := Int.eq_ofNat_of_zero_le (sub_nonneg.mpr he.le)
    have hmore : decreaseExponent m e (max (m.log2 + e - 52) (-1074)) = (m * 2 ^ k, e - k) := by
      simp [decreaseExponent, hk, Nat.shiftLeft_eq]
    have hlog : (m * 2 ^ k).log2 = m.log2 + k := log2_mul_two_pow hm k
    have hsame : ((m * 2 ^ k : ℕ) : ℚ) * 2 ^ (e - k) = m * 2 ^ e := by
      have := mul_lower_place (m : ℤ) (show e - k ≤ e by omega)
      simpa using this
    simp only [UnpackedFloat.round, targetExponent_eq, hmore]
    rw [← hsame]
    exact rounded_roundWithAccuracy_exact (by omega)

/-- The same for a mantissa with a sign of its own. -/
theorem rounded_normalize (n : ℤ) (e : ℤ) (zeroSign : Sign) :
    Rounded (n * 2 ^ e) (UnpackedFloat.normalize Format.binary64 n e zeroSign) := by
  unfold UnpackedFloat.normalize
  rcases lt_trichotomy n 0 with hn | rfl | hn
  · rw [Int.compare_eq_lt.mpr hn]
    have hcast : ((-n).toNat : ℚ) = -n := by
      exact_mod_cast Int.toNat_of_nonneg (by omega)
    have h := @rounded_round .negative (-n).toNat e (by omega)
    simpa [signed, hcast] using h
  · rw [show compare (0 : ℤ) 0 = .eq from rfl]
    exact ⟨trivial, 0, rfl, onGrid_zero, by simp⟩
  · rw [Int.compare_eq_gt.mpr hn]
    have hcast : (n.toNat : ℚ) = n := by
      exact_mod_cast Int.toNat_of_nonneg (by omega)
    have h := @rounded_round .positive n.toNat e (by omega)
    simpa [signed, hcast] using h

end PlacementTree.Binary64
