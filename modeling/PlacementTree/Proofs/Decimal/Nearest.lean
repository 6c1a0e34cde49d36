import PlacementTree.Decimal.Nearest
import PlacementTree.Proofs.Binary64.Interval
import PlacementTree.Proofs.Decimal.Written

/-!
# A decimal is read as its double

`Decimal.nearest` finds the double that a decimal is rounded to: if the decimal is one of the numbers of a double, it is that double
(`unpack_nearest`). Small decimals are computed by one product or quotient of doubles, all others as exact numbers; a decimal that is one of
the numbers of a double is inside the bounds beyond which nothing is computed.
-/

namespace PlacementTree

namespace Binary64

open Float.Model Float.Model.UnpackedFloat

variable {a b : Float} {x : Decimal.Dyadic} {p q : ℚ} {m m' : ℕ} {e e' : ℤ}

/-! ## Products and quotients -/

theorem represents_exact (m : ℕ) : Represents (.ofMantissaAndAccuracy m .exact) m := rfl

/-- The product of positive numbers, if its last place is not above that of the result. -/
theorem mul_eq {hm : 0 < m} {hm' : 0 < m'} (he : e + e' ≤ max ((m * m').log2 + (e + e') - 52) (-1074)) (hx : x.WellFormed)
    (h : x.Rounds (m * 2 ^ e * (m' * 2 ^ e'))) :
    mul Format.binary64 (.finite .positive m e hm) (.finite .positive m' e' hm') = .finite .positive x.mantissa x.exponent hx.pos := by
  have hproduct : (m : ℚ) * 2 ^ e * (m' * 2 ^ e') = ((m * m' : ℕ) : ℚ) * 2 ^ (e + e') := by
    rw [zpow_add₀ two_ne_zero, Nat.cast_mul, mul_mul_mul_comm]
  rw [hproduct] at h
  exact roundWithAccuracy_eq (represents_exact _) he hx h

/-- The whole quotient with the accuracy of its fraction is what is known of a quotient. -/
theorem represents_quotient (n : ℕ) {d : ℕ} (hd : 0 < d) :
    Represents (.ofMantissaAndAccuracy (n / d) (accuracyOfFraction (n % d) d)) (n / d : ℚ) := by
  have hdpos : (0 : ℚ) < d := by exact_mod_cast hd
  have hsplit : (n / d : ℚ) = (n / d : ℕ) + (n % d : ℕ) / d := by
    have : (n : ℚ) = d * (n / d : ℕ) + (n % d : ℕ) := by exact_mod_cast (Nat.div_add_mod n d).symm
    field_simp
    linarith
  have hless : ((n % d : ℕ) : ℚ) / d < 1 := by
    rw [div_lt_one hdpos]
    exact_mod_cast Nat.mod_lt n hd
  rw [hsplit]
  generalize n / d = quotient
  generalize n % d = rest at hless ⊢
  unfold accuracyOfFraction
  split
  · rename_i hzero
    rw [hzero]
    simp [ExtendedMantissa.ofMantissaAndAccuracy, Represents]
  · rename_i hrest
    have hpos : (0 : ℚ) < rest / d := by
      have : (0 : ℚ) < rest := by exact_mod_cast Nat.pos_of_ne_zero hrest
      positivity
    rcases lt_trichotomy (2 * rest) d with h | h | h
    · have hhalf : (rest : ℚ) / d < 1 / 2 := by
        rw [div_lt_iff₀ hdpos]
        have : (2 * rest : ℚ) < d := by exact_mod_cast h
        linarith
      rw [compare_lt_iff_lt.mpr h]
      exact ⟨by linarith, by linarith⟩
    · have hhalf : (rest : ℚ) / d = 1 / 2 := by
        rw [div_eq_iff hdpos.ne']
        have : (2 * rest : ℚ) = d := by exact_mod_cast h
        linarith
      rw [compare_eq_iff_eq.mpr h, hhalf]
      rfl
    · have hhalf : 1 / 2 < (rest : ℚ) / d := by
        rw [lt_div_iff₀ hdpos]
        have : (d : ℚ) < 2 * rest := by exact_mod_cast h
        linarith
      rw [compare_gt_iff_gt.mpr h]
      exact ⟨by linarith, by linarith⟩

/-- A quotient has all its places if the mantissa was shifted far enough. -/
theorem le_log2_quotient (hm : 0 < m) (hm' : 0 < m') {k : ℕ} (hk : m'.log2 + 53 ≤ m.log2 + k) : 52 ≤ (m * 2 ^ k / m').log2 := by
  have hlarge : 2 ^ 52 ≤ m * 2 ^ k / m' := by
    rw [Nat.le_div_iff_mul_le hm']
    calc 2 ^ 52 * m' ≤ 2 ^ 52 * 2 ^ (m'.log2 + 1) := Nat.mul_le_mul_left _ Nat.lt_log2_self.le
      _ = 2 ^ (m'.log2 + 53) := by rw [← pow_add]; congr 1; omega
      _ ≤ 2 ^ (m.log2 + k) := Nat.pow_le_pow_right two_pos hk
      _ = 2 ^ m.log2 * 2 ^ k := pow_add ..
      _ ≤ m * 2 ^ k := Nat.mul_le_mul_right _ (Nat.log2_self_le hm.ne')
  exact (Nat.le_log2 (by omega)).mpr hlarge

/-- The quotient of positive numbers. -/
theorem div_eq {hm : 0 < m} {hm' : 0 < m'} (hx : x.WellFormed) (h : x.Rounds (m * 2 ^ e / (m' * 2 ^ e'))) :
    div Format.binary64 (.finite .positive m e hm) (.finite .positive m' e' hm') = .finite .positive x.mantissa x.exponent hx.pos := by
  set place := min (e - e') (max ((m.log2 + 1 + e) - (m'.log2 + 1 + e') - 53) (-1074)) with hplace
  obtain ⟨k, hk⟩ : ∃ k : ℕ, e - e' - place = k := Int.eq_ofNat_of_zero_le (by omega)
  have hcore : divCore Format.binary64 m e m' e' = (m * 2 ^ k / m', place, accuracyOfFraction (m * 2 ^ k % m') m') := by
    have hshift : (e - e' - place).toNat = k := by omega
    rw [← hshift, ← Nat.shiftLeft_eq]
    rfl
  have hvalue : (m : ℚ) * 2 ^ e / (m' * 2 ^ e') = ((m * 2 ^ k : ℕ) / m' : ℚ) * 2 ^ place := by
    have hsplit : (2 : ℚ) ^ e = 2 ^ k * 2 ^ place * 2 ^ e' := by
      rw [← zpow_natCast, ← zpow_add₀ two_ne_zero, ← zpow_add₀ two_ne_zero]
      congr 1
      omega
    rw [hsplit]
    push_cast
    field_simp
  have hlast : place ≤ max ((m * 2 ^ k / m').log2 + place - 52) (-1074) := by
    rcases le_or_gt place (-1074) with hle | hgt
    · exact le_max_of_le_right hle
    · have := le_log2_quotient hm hm' (k := k) (by omega)
      exact le_max_of_le_left (by omega)
  rw [hvalue] at h
  simp only [UnpackedFloat.div, hcore]
  exact roundWithAccuracy_eq (represents_quotient _ hm') hlast hx h

/-! ## Decimals -/

/-- The double can be packed: its exponent is not too large. -/
theorem unpack_pack_eq (hx : x.WellFormed) (hfits : x.exponent ≤ 971) :
    unpack Format.binary64 (pack Format.binary64 (.finite .positive x.mantissa x.exponent hx.pos)) =
      .finite .positive x.mantissa x.exponent hx.pos :=
  unpack_pack ⟨hx.lt, hx.low, hx.full⟩ hfits

/-- What positive doubles unpack to. -/
theorem Denotes.exists_finite (h : Denotes a p) (hp : 0 < p) :
    ∃ m e hm, a.toModel.unpack = .finite .positive m e hm ∧ p = m * 2 ^ e := by
  rcases ratOf?_cases h with ⟨sign, -, rfl⟩ | ⟨sign, m, e, hm, hu, rfl⟩
  · exact absurd hp (lt_irrefl 0)
  · cases sign with
    | positive => exact ⟨m, e, hm, hu, rfl⟩
    | negative =>
      have : (0 : ℚ) < m * 2 ^ e := by positivity
      rw [signed] at hp
      linarith

theorem mul_eq_of_denotes (ha : Denotes a p) (hb : Denotes b q) (hp : 0 < p) (hq : 0 < q) (hx : x.WellFormed) (hfits : x.exponent ≤ 971)
    (h : x.Rounds (p * q)) : (a * b).toModel.unpack = .finite .positive x.mantissa x.exponent hx.pos := by
  obtain ⟨m, e, hm, hu, rfl⟩ := ha.exists_finite hp
  obtain ⟨m', e', hm', hv, rfl⟩ := hb.exists_finite hq
  have hca := canonical_toModel a
  have hcb := canonical_toModel b
  rw [hu] at hca
  rw [hv] at hcb
  rw [unpack_mul, hu, hv, mul_eq (add_exponents_le hm hm' hca.2.2 hcb.2.2) hx h, unpack_pack_eq hx hfits]

theorem div_eq_of_denotes (ha : Denotes a p) (hb : Denotes b q) (hp : 0 < p) (hq : 0 < q) (hx : x.WellFormed) (hfits : x.exponent ≤ 971)
    (h : x.Rounds (p / q)) : (a / b).toModel.unpack = .finite .positive x.mantissa x.exponent hx.pos := by
  obtain ⟨m, e, hm, hu, rfl⟩ := ha.exists_finite hp
  obtain ⟨m', e', hm', hv, rfl⟩ := hb.exists_finite hq
  rw [unpack_div, hu, hv, div_eq hx h, unpack_pack_eq hx hfits]

/-- Whether a double is this natural number. -/
def isNat (n : ℕ) (a : Float) : Bool :=
  match a.toModel.unpack with
  | .finite .positive m e _ => m * 2 ^ e.toNat == n * 2 ^ (-e).toNat
  | _ => false

theorem denotes_of_isNat {n : ℕ} (h : isNat n a = true) : Denotes a n := by
  unfold isNat at h
  split at h
  · rename_i m e hm hu
    have hscaled : (m : ℚ) * 2 ^ e.toNat = n * 2 ^ (-e).toNat := by exact_mod_cast beq_iff_eq.mp h
    have hvalue : (m : ℚ) * 2 ^ e = n := by
      have hpos : (0 : ℚ) < 2 ^ (-e).toNat := by positivity
      rw [← mul_left_inj' hpos.ne', mul_assoc, zpow_mul_pow_toNat two_ne_zero, hscaled]
    rw [Denotes, hu, ← hvalue]
    rfl
  · cases h

theorem isNat_powersOfTen : ∀ i : Fin Float.exactlyRepresentablePowersOfTen.size,
    isNat (10 ^ i.val) Float.exactlyRepresentablePowersOfTen[i] = true := by
  decide +kernel

/-- The table of powers of ten holds them. -/
theorem denotes_powerOfTen {k : ℕ} (hk : k < Float.exactlyRepresentablePowersOfTen.size) :
    Denotes Float.exactlyRepresentablePowersOfTen[k] (10 ^ k) := by
  have := denotes_of_isNat (isNat_powersOfTen ⟨k, hk⟩)
  exact_mod_cast this

theorem denotes_ofNat {n : ℕ} (hn : n < 2 ^ 53) : Denotes n.toUInt64.toFloat n := by
  obtain ⟨q, hq, hnearest⟩ := denotes_uint64 n.toUInt64
  have hsame : n.toUInt64.toNat = n := by
    simp
    omega
  have hgrid : OnGrid n := ⟨n, 0, by rw [Nat.abs_cast]; exact_mod_cast hn, by norm_num, by norm_num⟩
  rw [hsame] at hnearest
  rwa [hnearest.eq_of_onGrid hgrid] at hq

/-- Of small numbers the double is one product or quotient. -/
theorem unpack_ofScientific_small {digits : ℕ} (hpos : 0 < digits) (hlt : digits < 2 ^ 53) {exponent : ℤ} (hsmall : exponent.natAbs ≤ 22)
    (hx : x.WellFormed) (hfits : x.exponent ≤ 971) (h : x.Rounds (digits * 10 ^ exponent)) :
    (Float.ofScientific digits (decide (exponent < 0)) exponent.natAbs).toModel.unpack = .finite .positive x.mantissa x.exponent hx.pos := by
  have hdigits : (0 : ℚ) < digits := by exact_mod_cast hpos
  have hpower := denotes_powerOfTen (k := exponent.natAbs) (by simp [Float.exactlyRepresentablePowersOfTen]; omega)
  rw [Float.ofScientific, dif_pos ⟨hlt, hsmall⟩]
  dsimp only
  split
  · rename_i hnegative
    have hdivide : (digits : ℚ) * 10 ^ exponent = digits / 10 ^ exponent.natAbs := by
      have hexponent : exponent = -(exponent.natAbs : ℤ) := by
        rw [decide_eq_true_eq] at hnegative
        omega
      rw [div_eq_mul_inv, ← zpow_natCast, ← zpow_neg, ← hexponent]
    rw [hdivide] at h
    exact div_eq_of_denotes (denotes_ofNat hlt) hpower hdigits (by positivity) hx hfits h
  · rename_i hnegative
    have hmultiply : (digits : ℚ) * 10 ^ exponent = digits * 10 ^ exponent.natAbs := by
      have hexponent : exponent = (exponent.natAbs : ℤ) := by
        rw [decide_eq_true_eq] at hnegative
        omega
      rw [← zpow_natCast, ← hexponent]
    rw [hmultiply] at h
    exact mul_eq_of_denotes (denotes_ofNat hlt) hpower hdigits (by positivity) hx hfits h

theorem le_log2_shifted (hm : 0 < m) (hm' : 0 < m') : 52 ≤ (m * 2 ^ 53 * m').log2 := by
  have hlarge : 2 ^ 53 ≤ m * 2 ^ 53 * m' :=
    (Nat.le_mul_of_pos_left (2 ^ 53) hm).trans (Nat.le_mul_of_pos_right (m * 2 ^ 53) hm')
  exact (Nat.le_log2 (by omega)).mpr (by omega)

/-- The double that an exact decimal is rounded to. -/
theorem ofScientific_eq {digits : ℕ} (hpos : 0 < digits) {exponent : ℤ} (hhigh : exponent ≤ 2048) (hlow : -(2048 + digits.log2 : ℤ) ≤ exponent)
    (hx : x.WellFormed) (h : x.Rounds (digits * 10 ^ exponent)) :
    UnpackedFloat.ofScientific Format.binary64 digits exponent = .finite .positive x.mantissa x.exponent hx.pos := by
  have hbits : Format.binary64.exponentBits = 11 := rfl
  have hplaces : Format.binary64.mantissaBits = 53 := rfl
  unfold UnpackedFloat.ofScientific
  rw [dif_neg hpos.ne', hbits, if_neg (by omega), if_neg (by omega)]
  split
  · rename_i hnonneg
    have hpower : (10 : ℚ) ^ exponent = 10 ^ exponent.toNat := by rw [← zpow_natCast, Int.toNat_of_nonneg hnonneg]
    refine mul_eq ?_ hx ?_
    · have hfull := le_log2_shifted hpos (Nat.pow_pos (n := exponent.toNat) (show 0 < 10 by decide))
      rw [hplaces, Nat.shiftLeft_eq]
      omega
    · rw [hpower] at h
      have hsame : ((digits <<< 53 : ℕ) : ℚ) * 2 ^ (-((53 : ℕ) : ℤ)) * ((10 ^ exponent.toNat : ℕ) * 2 ^ (0 : ℤ)) =
          digits * 10 ^ exponent.toNat := by
        rw [Nat.shiftLeft_eq, zpow_zero, mul_one, zpow_neg, zpow_natCast]
        push_cast
        field_simp
        norm_num
      rwa [hplaces, hsame]
  · rename_i hnegative
    have hpower : (10 : ℚ) ^ exponent = 1 / 10 ^ (-exponent).toNat := by
      rw [one_div, ← zpow_natCast, ← zpow_neg, Int.toNat_of_nonneg (by omega), neg_neg]
    refine div_eq hx ?_
    rw [hpower] at h
    have hsame : (digits : ℚ) * 2 ^ (0 : ℤ) / ((10 ^ (-exponent).toNat : ℕ) * 2 ^ (0 : ℤ)) = digits * (1 / 10 ^ (-exponent).toNat) := by
      push_cast
      norm_num
      rfl
    rwa [hsame]

/-- Of other numbers the double is computed from the exact decimal. -/
theorem unpack_ofScientific_large {digits : ℕ} (hpos : 0 < digits) {exponent : ℤ} (hlarge : ¬ (digits < 2 ^ 53 ∧ exponent.natAbs ≤ 22))
    (hhigh : exponent ≤ 2048) (hlow : -(2048 + digits.log2 : ℤ) ≤ exponent)
    (hx : x.WellFormed) (hfits : x.exponent ≤ 971) (h : x.Rounds (digits * 10 ^ exponent)) :
    (Float.ofScientific digits (decide (exponent < 0)) exponent.natAbs).toModel.unpack = .finite .positive x.mantissa x.exponent hx.pos := by
  have hsign : (if decide (exponent < 0) = true then Int.negOfNat exponent.natAbs else Int.ofNat exponent.natAbs) = exponent := by
    by_cases h : exponent < 0
    · rw [if_pos (decide_eq_true h), Int.negOfNat_eq, Int.ofNat_eq_natCast]
      omega
    · rw [if_neg (by simpa using h), Int.ofNat_eq_natCast]
      omega
  rw [Float.ofScientific, dif_neg hlarge]
  dsimp only
  rw [hsign]
  show unpack Format.binary64 (pack Format.binary64 (UnpackedFloat.ofScientific Format.binary64 digits exponent)) = _
  rw [ofScientific_eq hpos hhigh hlow hx h, unpack_pack_eq hx hfits]

end Binary64

namespace Decimal

open Binary64

variable {x : Dyadic} {q : ℚ} {digits : ℕ} {exponent : ℤ}

/-! ## The double nearest to a decimal -/

/-- The numbers of doubles are neither too small nor too large. -/
theorem Dyadic.Rounds.between (h : x.Rounds q) (hx : x.WellFormed) (hfits : x.exponent ≤ 971) :
    (10 : ℚ) ^ (-324 : ℤ) < q ∧ q < 10 ^ (309 : ℤ) := by
  obtain ⟨hlower, hupper⟩ := h.bounds
  have hreach := x.reach_le
  have hmantissa : (1 : ℚ) ≤ x.mantissa ∧ (x.mantissa : ℚ) + 1 ≤ 2 ^ 53 := ⟨by exact_mod_cast hx.pos, by exact_mod_cast hx.lt⟩
  constructor
  · calc (10 : ℚ) ^ (-324 : ℤ) < 2 ^ (-1075 : ℤ) := by
          rw [zpow_neg, zpow_neg, inv_lt_inv₀ (by positivity) (by positivity)]
          exact_mod_cast (show 2 ^ 1075 < 10 ^ 324 by decide +kernel)
      _ = 1 / 2 * 2 ^ (-1074 : ℤ) := by rw [show (-1074 : ℤ) = -1075 + 1 by rfl, zpow_add_one₀ two_ne_zero]; ring
      _ ≤ (x.mantissa - x.reach) * 2 ^ x.exponent :=
        mul_le_mul (by linarith) (zpow_le_zpow_right₀ one_le_two hx.low) (by positivity) (by linarith)
      _ ≤ q := hlower
  · calc q ≤ (x.mantissa + 1 / 2) * 2 ^ x.exponent := hupper
      _ ≤ 2 ^ 53 * 2 ^ (971 : ℤ) :=
        mul_le_mul (by linarith) (zpow_le_zpow_right₀ one_le_two hfits) (by positivity) (by positivity)
      _ < 10 ^ (309 : ℤ) := by exact_mod_cast (show 2 ^ 53 * 2 ^ 971 < 10 ^ 309 by decide +kernel)

/-- A decimal of `n` digits is below the power of ten `n` places above its exponent, and not below the one before. -/
theorem toDigits_bounds (hpos : 0 < digits) (exponent : ℤ) :
    (10 : ℚ) ^ (exponent + (Nat.toDigits 10 digits).length - 1) ≤ digits * 10 ^ exponent ∧
      (digits : ℚ) * 10 ^ exponent < 10 ^ (exponent + (Nat.toDigits 10 digits).length) := by
  have hdigit : 0 < (Nat.toDigits 10 digits).length := Nat.length_toDigits_pos
  have hbelow := lt_pow_length_toDigits digits
  have habove := pow_length_toDigits_le hpos
  generalize (Nat.toDigits 10 digits).length = length at *
  have hpower : (0 : ℚ) < 10 ^ exponent := by positivity
  constructor
  · obtain ⟨rest, rfl⟩ : ∃ rest, length = rest + 1 := ⟨length - 1, by omega⟩
    have hexponent : exponent + ((rest + 1 : ℕ) : ℤ) - 1 = rest + exponent := by push_cast; ring
    rw [hexponent, zpow_add₀ (by norm_num), zpow_natCast]
    exact mul_le_mul_of_nonneg_right (by exact_mod_cast habove) hpower.le
  · rw [add_comm exponent, zpow_add₀ (by norm_num), zpow_natCast]
    exact mul_lt_mul_of_pos_right (by exact_mod_cast hbelow) hpower

/-- A decimal that is one of the numbers of a double is read as this double. -/
theorem unpack_nearest (hpos : 0 < digits) (hx : x.WellFormed) (hfits : x.exponent ≤ 971) (h : x.Rounds (digits * 10 ^ exponent)) :
    (nearest digits exponent).toModel.unpack = .finite .positive x.mantissa x.exponent hx.pos := by
  obtain ⟨hlow, hhigh⟩ := h.between hx hfits
  obtain ⟨hlower, hupper⟩ := toDigits_bounds hpos exponent
  have hreach : exponent + (Nat.toDigits 10 digits).length - 1 < 309 := (zpow_lt_zpow_iff_right₀ (by norm_num)).mp (hlower.trans_lt hhigh)
  have hreach' : -324 < exponent + (Nat.toDigits 10 digits).length := (zpow_lt_zpow_iff_right₀ (by norm_num)).mp (hlow.trans hupper)
  have hlength : (Nat.toDigits 10 digits).length ≤ digits.log2 + 1 :=
    (Nat.length_toDigits_le_iff (by decide) (Nat.succ_pos _)).mpr
      (Nat.lt_log2_self.trans_le (Nat.pow_le_pow_left (by decide) _))
  have hdigit : 0 < (Nat.toDigits 10 digits).length := Nat.length_toDigits_pos
  unfold nearest
  dsimp only
  rw [if_neg hpos.ne', Int.ofNat_eq_natCast, if_neg (by omega), if_neg (by omega)]
  by_cases hsmall : digits < 2 ^ 53 ∧ exponent.natAbs ≤ 22
  · exact unpack_ofScientific_small hpos hsmall.1 hsmall.2 hx hfits h
  · exact unpack_ofScientific_large hpos hsmall (by omega) (by omega) hx hfits h

end Decimal

end PlacementTree
