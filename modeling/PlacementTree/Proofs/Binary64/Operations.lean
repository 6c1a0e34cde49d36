import PlacementTree.Proofs.Binary64.Packing

/-!
# Operations on unpacked doubles

Operations work on unpacked canonical forms. A sum, a difference and a product are the exact result rounded to the grid (`rounded_add`,
`rounded_sub`, `rounded_mul`), and a comparison is that of the numbers (`compare_of_ratOf?`). A canonical form fits into a double exactly
if it stands for nothing larger than the `largest` double (`fits_iff`), so packing keeps every result that is not too large
(`ratOf?_unpack_pack`).
-/

namespace PlacementTree.Binary64

open Float.Model (Format UnpackedFloat)
open Float.Model.UnpackedFloat

variable {u v : UnpackedFloat} {sign : Sign} {m m' : ℕ} {e e' : ℤ} {p q r : ℚ}

/-! ## Unpacked numbers -/

/-- The largest double. -/
def largest : ℚ := (2 ^ 53 - 1) * 2 ^ (971 : ℤ)

theorem onGrid_largest : OnGrid largest := ⟨2 ^ 53 - 1, 971, by norm_num, by norm_num, by norm_num [largest]⟩

theorem two_pow_le_largest {k : ℕ} (h : k ≤ 1023) : (2 : ℚ) ^ k ≤ largest :=
  calc (2 : ℚ) ^ k ≤ 2 ^ 1023 := pow_le_pow_right₀ one_le_two h
    _ = 2 ^ 52 * 2 ^ 971 := by rw [← pow_add]
    _ ≤ largest := mul_le_mul_of_nonneg_right (by norm_num) (by positivity)

theorem abs_signed : |signed sign q| = |q| := by
  cases sign
  · exact abs_neg q
  · rfl

/-- A canonical form stands for a number of the grid. -/
theorem onGrid_of_ratOf? (hc : Canonical u) (hu : ratOf? u = some p) : OnGrid p := by
  rcases ratOf?_cases hu with ⟨sign, rfl, rfl⟩ | ⟨sign, m, e, hm, rfl, rfl⟩
  · exact onGrid_zero
  · have h : OnGrid (m * 2 ^ e) := ⟨m, e, by rw [Nat.abs_cast]; exact_mod_cast hc.1, hc.2.1, rfl⟩
    cases sign
    · exact h.neg
    · exact h

theorem rounded_self (hc : Canonical u) (hu : ratOf? u = some p) : Rounded p u :=
  ⟨hc, p, hu, onGrid_of_ratOf? hc hu, by simp⟩

/-- A canonical form fits exactly if it stands for nothing larger than the largest double. -/
theorem fits_iff (hc : Canonical u) (hu : ratOf? u = some p) : Fits u ↔ |p| ≤ largest := by
  rcases ratOf?_cases hu with ⟨sign, rfl, rfl⟩ | ⟨sign, m, e, hm, rfl, rfl⟩
  · have : (0 : ℚ) ≤ largest := zero_le_one.trans (two_pow_le_largest (Nat.zero_le 1023))
    simpa [Fits] using this
  · obtain ⟨hlt, -, hfull⟩ := hc
    rw [abs_signed, abs_of_nonneg (by positivity)]
    constructor
    · intro hfits
      have hm : (m : ℚ) ≤ 2 ^ 53 - 1 := by
        rw [le_sub_iff_add_le]
        exact_mod_cast hlt
      exact mul_le_mul hm (zpow_le_zpow_right₀ one_le_two hfits) (by positivity) (by norm_num)
    · intro hle
      by_contra hlarge
      rw [Fits, not_le] at hlarge
      have hm : (2 : ℚ) ^ 52 ≤ m := by exact_mod_cast hfull.resolve_right (by omega)
      have hover : (2 : ℚ) ^ 53 * 2 ^ (971 : ℤ) ≤ (2 ^ 53 - 1) * 2 ^ (971 : ℤ) :=
        calc (2 : ℚ) ^ 53 * 2 ^ (971 : ℤ) = 2 ^ 52 * (2 : ℚ) ^ ((971 : ℤ) + 1) := by
              rw [zpow_add_one₀ two_ne_zero, pow_succ, mul_assoc, mul_comm (2 : ℚ)]
          _ ≤ (m : ℚ) * 2 ^ e := mul_le_mul hm (zpow_le_zpow_right₀ one_le_two hlarge) (by positivity) (by positivity)
          _ ≤ (2 ^ 53 - 1) * 2 ^ (971 : ℤ) := hle
      have := le_of_mul_le_mul_right hover (by positivity)
      norm_num at this

/-- Packing a rounded result that is not too large keeps it. -/
theorem ratOf?_unpack_pack (h : Rounded q u) (hq : |q| ≤ largest) :
    ∃ y, ratOf? (unpack Format.binary64 (pack Format.binary64 u)) = some y ∧ Nearest q y := by
  obtain ⟨hc, y, hu, hy⟩ := h
  obtain ⟨hlower, hupper⟩ := abs_le.mp hq
  have hfits : |y| ≤ largest := abs_le.mpr ⟨hy.ge onGrid_largest.neg hlower, hy.le onGrid_largest hupper⟩
  rw [unpack_pack hc ((fits_iff hc hu).mpr hfits)]
  exact ⟨y, hu, hy⟩

/-! ## Operations -/

/-- The mantissa with its sign, lowered to a place that is not above its own. -/
theorem apply_decreaseExponent (h : e' ≤ e) :
    ((sign.apply ((decreaseExponent m e e').1 : ℕ) : ℤ) : ℚ) * 2 ^ e' = signed sign (m * 2 ^ e) := by
  have hlower := mul_lower_place (m : ℤ) h
  have hmantissa : ((decreaseExponent m e e').1 : ℤ) = m * 2 ^ (e - e').toNat := by
    simp [decreaseExponent, Nat.shiftLeft_eq]
  rw [← hmantissa] at hlower
  cases sign <;> simp only [Sign.apply, signed] <;> push_cast at hlower ⊢ <;> linarith

theorem rounded_add (hcu : Canonical u) (hcv : Canonical v) (hu : ratOf? u = some p) (hv : ratOf? v = some q) :
    Rounded (p + q) (add Format.binary64 u v) := by
  rcases ratOf?_cases hu with ⟨sign, rfl, rfl⟩ | ⟨sign, m, e, hm, rfl, rfl⟩
  · rw [zero_add]
    rcases ratOf?_cases hv with ⟨sign', rfl, rfl⟩ | ⟨sign', m', e', hm', rfl, rfl⟩
    · cases sign <;> cases sign' <;> exact rounded_self trivial rfl
    · exact rounded_self hcv hv
  · rcases ratOf?_cases hv with ⟨sign', rfl, rfl⟩ | ⟨sign', m', e', hm', rfl, rfl⟩
    · rw [add_zero]
      exact rounded_self hcu hu
    · rw [← apply_decreaseExponent (min_le_left e e'), ← apply_decreaseExponent (min_le_right e e'), ← add_mul, ← Int.cast_add]
      exact rounded_normalize _ _ _

/-- A difference is the sum with the opposite. -/
theorem sub_eq_add_opposite : sub Format.binary64 u v = add Format.binary64 u v.neg := by
  have happly : ∀ (s : Sign) (n : ℤ), (-s).apply n = - s.apply n := by
    intro s n
    cases s
    · exact (neg_neg n).symm
    · rfl
  cases u <;> cases v <;> try rfl
  simp only [sub, add, neg, happly]
  rfl

theorem canonical_neg (h : Canonical u) : Canonical u.neg := by
  cases u <;> exact h

theorem ratOf?_neg (h : ratOf? u = some p) : ratOf? u.neg = some (-p) := by
  rcases ratOf?_cases h with ⟨sign, rfl, rfl⟩ | ⟨sign, m, e, hm, rfl, rfl⟩
  · exact congrArg some neg_zero.symm
  · cases sign
    · exact congrArg some (neg_neg _).symm
    · rfl

theorem rounded_sub (hcu : Canonical u) (hcv : Canonical v) (hu : ratOf? u = some p) (hv : ratOf? v = some q) :
    Rounded (p - q) (sub Format.binary64 u v) := by
  rw [sub_eq_add_opposite, sub_eq_add_neg]
  exact rounded_add hcu (canonical_neg hcv) hu (ratOf?_neg hv)

theorem signed_mul_signed {sign' : Sign} : signed sign p * signed sign' q = signed (sign * sign') (p * q) := by
  cases sign <;> cases sign'
  · exact neg_mul_neg p q
  · exact neg_mul p q
  · exact mul_neg p q
  · rfl

/-- The last place of a product is not above that of the result. -/
theorem add_exponents_le (hm : 0 < m) (hm' : 0 < m') (hfull : 2 ^ 52 ≤ m ∨ e = -1074) (hfull' : 2 ^ 52 ≤ m' ∨ e' = -1074) :
    e + e' ≤ max ((m * m').log2 + (e + e') - 52) (-1074) := by
  rcases le_or_gt (2 ^ 52) (m * m') with hlarge | hsmall
  · have := (Nat.le_log2 (Nat.mul_pos hm hm').ne').mpr hlarge
    omega
  · have := hfull.resolve_left fun h => absurd (h.trans (Nat.le_mul_of_pos_right m hm')) (not_le.mpr hsmall)
    have := hfull'.resolve_left fun h => absurd (h.trans (Nat.le_mul_of_pos_left m' hm)) (not_le.mpr hsmall)
    omega

theorem rounded_mul (hcu : Canonical u) (hcv : Canonical v) (hu : ratOf? u = some p) (hv : ratOf? v = some q) :
    Rounded (p * q) (mul Format.binary64 u v) := by
  rcases ratOf?_cases hu with ⟨sign, rfl, rfl⟩ | ⟨sign, m, e, hm, rfl, rfl⟩
  · rw [zero_mul]
    rcases ratOf?_cases hv with ⟨sign', rfl, rfl⟩ | ⟨sign', m', e', hm', rfl, rfl⟩ <;> exact rounded_self trivial rfl
  · rcases ratOf?_cases hv with ⟨sign', rfl, rfl⟩ | ⟨sign', m', e', hm', rfl, rfl⟩
    · rw [mul_zero]
      exact rounded_self trivial rfl
    · have hproduct : (m : ℚ) * 2 ^ e * (m' * 2 ^ e') = ((m * m' : ℕ) : ℚ) * 2 ^ (e + e') := by
        rw [zpow_add₀ two_ne_zero, Nat.cast_mul, mul_mul_mul_comm]
      rw [signed_mul_signed, hproduct]
      exact rounded_roundWithAccuracy_exact (add_exponents_le hm hm' hcu.2.2 hcv.2.2)

/-! ## Comparisons -/

/-- Canonical mantissas and exponents compare like the numbers, the exponents first. -/
theorem compare_places (hlt : m < 2 ^ 53) (hlt' : m' < 2 ^ 53) (hlow : -1074 ≤ e) (hlow' : -1074 ≤ e') 
    (hfull : 2 ^ 52 ≤ m ∨ e = -1074) (hfull' : 2 ^ 52 ≤ m' ∨ e' = -1074) :
    (compare e e').then (compare m m') = compare ((m : ℚ) * 2 ^ e) (m' * 2 ^ e') := by
  -- A number whose last place is lower lacks a place of the other, which has all its places.
  have hlower : ∀ {m m' : ℕ} {e e' : ℤ}, m < 2 ^ 53 → -1074 ≤ e → (2 ^ 52 ≤ m' ∨ e' = -1074) → e < e' →
      (m : ℚ) * 2 ^ e < m' * 2 ^ e' := by
    intro m m' e e' hlt hlow hfull hless
    have hm : (m : ℚ) < 2 ^ 53 := by exact_mod_cast hlt
    have hm' : (2 : ℚ) ^ 52 ≤ m' := by exact_mod_cast hfull.resolve_right (by omega)
    calc (m : ℚ) * 2 ^ e < 2 ^ 53 * 2 ^ e := mul_lt_mul_of_pos_right hm (by positivity)
      _ = 2 ^ 52 * 2 ^ (e + 1) := by rw [zpow_add_one₀ two_ne_zero]; ring
      _ ≤ (m' : ℚ) * 2 ^ e' := mul_le_mul hm' (zpow_le_zpow_right₀ one_le_two hless) (by positivity) (by positivity)
  rcases lt_trichotomy e e' with hless | rfl | hless
  · rw [compare_lt_iff_lt.mpr hless, compare_lt_iff_lt.mpr (hlower hlt hlow hfull' hless)]
    rfl
  · have hpos : (0 : ℚ) < 2 ^ e := by positivity
    rw [compare_eq_iff_eq.mpr rfl]
    rcases lt_trichotomy m m' with hless | rfl | hless
    · rw [compare_lt_iff_lt.mpr hless, compare_lt_iff_lt.mpr (mul_lt_mul_of_pos_right (Nat.cast_lt.mpr hless) hpos)]
      rfl
    · rw [compare_eq_iff_eq.mpr rfl, compare_eq_iff_eq.mpr rfl]
      rfl
    · rw [compare_gt_iff_gt.mpr hless, compare_gt_iff_gt.mpr (mul_lt_mul_of_pos_right (Nat.cast_lt.mpr hless) hpos)]
      rfl
  · rw [compare_gt_iff_gt.mpr hless, compare_gt_iff_gt.mpr (hlower hlt' hlow' hfull hless)]
    rfl

theorem swap_compare (a b : ℚ) : (compare a b).swap = compare (-a) (-b) := by
  rcases lt_trichotomy a b with h | rfl | h
  · rw [compare_lt_iff_lt.mpr h, compare_gt_iff_gt.mpr (neg_lt_neg h)]
    rfl
  · rw [compare_eq_iff_eq.mpr rfl, compare_eq_iff_eq.mpr rfl]
    rfl
  · rw [compare_gt_iff_gt.mpr h, compare_lt_iff_lt.mpr (neg_lt_neg h)]
    rfl

/-- Canonical forms compare like the numbers they stand for. -/
theorem compare_of_ratOf? (hcu : Canonical u) (hcv : Canonical v) (hu : ratOf? u = some p) (hv : ratOf? v = some q) :
    UnpackedFloat.compare u v = some (compare p q) := by
  have hpos : ∀ {m : ℕ} (e : ℤ), 0 < m → (0 : ℚ) < m * 2 ^ e := fun e hm => by positivity
  rcases ratOf?_cases hu with ⟨sign, rfl, rfl⟩ | ⟨sign, m, e, hm, rfl, rfl⟩
  · rcases ratOf?_cases hv with ⟨sign', rfl, rfl⟩ | ⟨sign', m', e', hm', rfl, rfl⟩
    · rw [compare_eq_iff_eq.mpr rfl]
      rfl
    · cases sign'
      · exact congrArg some (compare_gt_iff_gt.mpr (neg_neg_of_pos (hpos e' hm'))).symm
      · exact congrArg some (compare_lt_iff_lt.mpr (hpos e' hm')).symm
  · rcases ratOf?_cases hv with ⟨sign', rfl, rfl⟩ | ⟨sign', m', e', hm', rfl, rfl⟩
    · cases sign
      · exact congrArg some (compare_lt_iff_lt.mpr (neg_neg_of_pos (hpos e hm))).symm
      · exact congrArg some (compare_gt_iff_gt.mpr (hpos e hm)).symm
    · -- Of the same sign the places decide, the other way round below zero.
      have hplaces := compare_places hcu.1 hcv.1 hcu.2.1 hcv.2.1 hcu.2.2 hcv.2.2
      cases sign <;> cases sign'
      · rw [signed, signed, ← swap_compare, ← hplaces]
        rfl
      · exact congrArg some (compare_lt_iff_lt.mpr ((neg_neg_of_pos (hpos e hm)).trans (hpos e' hm'))).symm
      · exact congrArg some (compare_gt_iff_gt.mpr ((neg_neg_of_pos (hpos e' hm')).trans (hpos e hm))).symm
      · rw [signed, signed, ← hplaces]
        rfl

end PlacementTree.Binary64
