import PlacementTree.Proofs.Binary64.TotalOrder

/-!
# The numbers that are rounded to a double

A double `x` is `m * 2 ^ e`, and the numbers that are rounded to it are those within half of its last place. Below a power of two the places
are half as wide, and so is the reach of `x` on that side. A number half way between two doubles goes to the even one (`Dyadic.Rounds`).
Whatever is rounded, a mantissa with what is known of the rest (`Represents`), the result is `x` if the number is one of these
(`roundWithAccuracy_eq`).
-/

namespace PlacementTree

/-- A power as a quotient of powers of natural exponents. -/
theorem zpow_mul_pow_toNat {b : ℚ} (hb : b ≠ 0) (k : ℤ) : b ^ k * b ^ (-k).toNat = b ^ k.toNat := by
  rw [← zpow_natCast, ← zpow_natCast, ← zpow_add₀ hb]
  congr 1
  omega

namespace Decimal.Dyadic

/-- How far down the numbers that are rounded to a double reach, in its last place. -/
def reach (x : Dyadic) : ℚ := if x.wideBelow then 1 / 2 else 1 / 4

/-- The number is one of those that are rounded to a double. The ends are among them if the mantissa is even. -/
def Rounds (x : Dyadic) (q : ℚ) : Prop :=
  if x.mantissa % 2 = 0 then (x.mantissa - x.reach) * 2 ^ x.exponent ≤ q ∧ q ≤ (x.mantissa + 1 / 2) * 2 ^ x.exponent
  else (x.mantissa - x.reach) * 2 ^ x.exponent < q ∧ q < (x.mantissa + 1 / 2) * 2 ^ x.exponent

/-- The mantissa has all its places, unless the last place is the lowest of all, and the reach is short exactly below a power of two. -/
structure WellFormed (x : Dyadic) : Prop where
  pos : 0 < x.mantissa
  lt : x.mantissa < 2 ^ 53
  low : -1074 ≤ x.exponent
  full : 2 ^ 52 ≤ x.mantissa ∨ x.exponent = -1074
  narrow_iff : x.wideBelow = false ↔ x.mantissa = 2 ^ 52 ∧ x.exponent ≠ -1074

variable {x : Dyadic} {q : ℚ}

theorem Rounds.bounds (h : x.Rounds q) :
    (x.mantissa - x.reach) * 2 ^ x.exponent ≤ q ∧ q ≤ (x.mantissa + 1 / 2) * 2 ^ x.exponent := by
  unfold Rounds at h
  split at h
  · exact h
  · exact ⟨h.1.le, h.2.le⟩

theorem reach_le (x : Dyadic) : x.reach ≤ 1 / 2 := by
  unfold reach
  split <;> norm_num

/-- Below a power of two the reach is short. -/
theorem WellFormed.reach_eq (hx : x.WellFormed) (hmantissa : x.mantissa = 2 ^ 52) (hexponent : x.exponent ≠ -1074) : x.reach = 1 / 4 := by
  rw [reach, hx.narrow_iff.mpr ⟨hmantissa, hexponent⟩]
  rfl

/-- With all its places and a higher last place than the double, a number is larger than every number of the double. -/
theorem Rounds.exponent_le {r : ℚ} {e : ℤ} (h : x.Rounds (r * 2 ^ e)) (hx : x.WellFormed) (hfull : 2 ^ 52 ≤ r) : e ≤ x.exponent := by
  by_contra hmore
  have hpos : (0 : ℚ) < 2 ^ x.exponent := by positivity
  have hmantissa : (x.mantissa : ℚ) + 1 ≤ 2 ^ 53 := by exact_mod_cast hx.lt
  have hplaces : (2 : ℚ) ^ 53 * 2 ^ x.exponent ≤ r * 2 ^ e :=
    calc (2 : ℚ) ^ 53 * 2 ^ x.exponent = 2 ^ 52 * 2 ^ (x.exponent + 1) := by rw [zpow_add_one₀ two_ne_zero]; ring
      _ ≤ r * 2 ^ e := mul_le_mul hfull (zpow_le_zpow_right₀ one_le_two (by omega)) (by positivity) (by linarith)
  have := le_of_mul_le_mul_right (hplaces.trans h.bounds.2) hpos
  linarith

/-- A number of the double with a lower last place lies just below it, and the double is a power of two. -/
theorem Rounds.below_power {r : ℚ} {e : ℤ} (h : x.Rounds (r * 2 ^ e)) (hx : x.WellFormed) (hlt : r < 2 ^ 53) (hlow : -1074 ≤ e)
    (hless : e < x.exponent) : x.mantissa = 2 ^ 52 ∧ x.exponent = e + 1 := by
  have hpos : (0 : ℚ) < 2 ^ x.exponent := by positivity
  have hbelow : r * 2 ^ e < 2 ^ 53 * 2 ^ e := mul_lt_mul_of_pos_right hlt (by positivity)
  have hlower := h.bounds.1
  have hmantissa : x.mantissa = 2 ^ 52 := by
    have hfull : 2 ^ 52 ≤ x.mantissa := hx.full.resolve_right (by omega)
    have hreach := x.reach_le
    have hplaces : (2 : ℚ) ^ 53 * 2 ^ e ≤ 2 ^ 52 * 2 ^ x.exponent :=
      calc (2 : ℚ) ^ 53 * 2 ^ e = 2 ^ 52 * 2 ^ (e + 1) := by rw [zpow_add_one₀ two_ne_zero]; ring
        _ ≤ 2 ^ 52 * 2 ^ x.exponent := mul_le_mul_of_nonneg_left (zpow_le_zpow_right₀ one_le_two hless) (by positivity)
    have hlast : (x.mantissa : ℚ) < 2 ^ 52 + 1 := by
      have := lt_of_mul_lt_mul_right ((hlower.trans_lt hbelow).trans_le hplaces) hpos.le
      linarith
    have : x.mantissa < 2 ^ 52 + 1 := by exact_mod_cast hlast
    omega
  refine ⟨hmantissa, ?_⟩
  by_contra hfar
  have hplaces : (2 : ℚ) ^ 53 * 2 ^ e ≤ 2 ^ 51 * 2 ^ x.exponent :=
    calc (2 : ℚ) ^ 53 * 2 ^ e = 2 ^ 51 * 2 ^ (e + 2) := by rw [zpow_add₀ two_ne_zero]; norm_num; ring
      _ ≤ 2 ^ 51 * 2 ^ x.exponent := mul_le_mul_of_nonneg_left (zpow_le_zpow_right₀ one_le_two (by omega)) (by positivity)
  have hcast : (x.mantissa : ℚ) = 2 ^ 52 := by rw [hmantissa]; norm_num
  rw [hcast, hx.reach_eq hmantissa (by omega)] at hlower
  have := lt_of_mul_lt_mul_right ((hlower.trans_lt hbelow).trans_le hplaces) hpos.le
  norm_num at this

/-- What the bits of a double other than zero stand for is well-formed. -/
theorem wellFormed_ofMagnitude {magnitude : Nat} (h : magnitude ≠ 0) : (ofMagnitude magnitude).WellFormed := by
  have hfraction : magnitude % 2 ^ 52 < 2 ^ 52 := Nat.mod_lt _ (by decide)
  have hwide : (ofMagnitude magnitude).wideBelow =
      (decide (magnitude / 2 ^ 52 = 0) || (magnitude % 2 ^ 52 != 0 || magnitude / 2 ^ 52 == 1)) := by
    unfold ofMagnitude exponentUnit
    dsimp only
    split <;> simp_all
  refine ⟨mantissa_pos h, ?_, ?_, ?_, ?_⟩
  · rw [mantissa_ofMagnitude]
    split <;> omega
  · rw [exponent_ofMagnitude]
    split <;> omega
  · rw [mantissa_ofMagnitude, exponent_ofMagnitude]
    split <;> omega
  · rw [hwide, mantissa_ofMagnitude, exponent_ofMagnitude]
    split <;> simp_all
    omega

end Decimal.Dyadic

namespace Binary64

open Float.Model Float.Model.UnpackedFloat

variable {em : ExtendedMantissa} {x : Decimal.Dyadic} {q r : ℚ} {m n : ℕ} {e : ℤ} {sign : Sign}

/-- A number closer to an integer than to others, or half way and the integer is even, is rounded to it. -/
theorem Represents.roundedMantissa_eq (h : Represents em r)
    (hn : if n % 2 = 0 then n - 1 / 2 ≤ r ∧ r ≤ n + 1 / 2 else n - 1 / 2 < r ∧ r < n + 1 / 2) : em.roundedMantissa = n := by
  obtain ⟨m, round, sticky⟩ := em
  have hle : (n : ℚ) - 1 / 2 ≤ r ∧ r ≤ n + 1 / 2 := by
    split at hn
    · exact hn
    · exact ⟨hn.1.le, hn.2.le⟩
  have hlt {a b : ℕ} (hab : (a : ℚ) < b + 1) : a ≤ b := Nat.le_of_lt_succ (by exact_mod_cast hab)
  cases round <;> cases sticky <;>
    simp only [Represents, ExtendedMantissa.roundedMantissa, ExtendedMantissa.accuracy, Accuracy.roundToNearestEven] at h ⊢
  · exact Nat.le_antisymm (hlt (by linarith)) (hlt (by linarith))
  · exact Nat.le_antisymm (hlt (by linarith)) (hlt (by linarith))
  · -- Half way, the integer is one of the neighbours, and it is even.
    have hlower : m ≤ n := hlt (by linarith)
    have hupper : n ≤ m + 1 := hlt (by push_cast; linarith)
    have heven : n % 2 = 0 := by
      by_contra hodd
      rw [if_neg hodd] at hn
      have hbelow : n ≤ m := hlt (by linarith)
      have habove : (m : ℚ) < n := by linarith
      exact absurd (Nat.cast_lt.mp habove) (not_lt.mpr hbelow)
    omega
  · exact Nat.le_antisymm (hlt (by push_cast; linarith)) (hlt (by push_cast; linarith))

/-- A number has only one canonical form. -/
theorem places_unique {m m' : ℕ} {e e' : ℤ} (hlt : m < 2 ^ 53) (hlt' : m' < 2 ^ 53) (hlow : -1074 ≤ e) (hlow' : -1074 ≤ e')
    (hfull : 2 ^ 52 ≤ m ∨ e = -1074) (hfull' : 2 ^ 52 ≤ m' ∨ e' = -1074) (h : (m : ℚ) * 2 ^ e = m' * 2 ^ e') : m = m' ∧ e = e' := by
  have hplaces := compare_places hlt hlt' hlow hlow' hfull hfull'
  rw [h, compare_eq_iff_eq.mpr rfl, Ordering.then_eq_eq, compare_eq_iff_eq, compare_eq_iff_eq] at hplaces
  exact ⟨hplaces.2, hplaces.1⟩

/-- In its last place, what is one of the numbers of a double is rounded to the double. -/
theorem Represents.roundedMantissa_mul (hr : Represents em r) (hlt : r < 2 ^ 53) (hlow : -1074 ≤ e) (hfull : 2 ^ 52 ≤ r ∨ e = -1074)
    (hx : x.WellFormed) (hrounds : x.Rounds (r * 2 ^ e)) : (em.roundedMantissa : ℚ) * 2 ^ e = x.mantissa * 2 ^ x.exponent := by
  have hpos : (0 : ℚ) < 2 ^ x.exponent := by positivity
  have hreach := x.reach_le
  have hle : e ≤ x.exponent := by
    rcases hfull with hfull | rfl
    · exact hrounds.exponent_le hx hfull
    · exact hx.low
  rcases hle.lt_or_eq with hless | rfl
  · obtain ⟨hmantissa, hexponent⟩ := hrounds.below_power hx hlt hlow hless
    have hcast : (x.mantissa : ℚ) = 2 ^ 52 := by rw [hmantissa]; norm_num
    have hsplit : (2 : ℚ) ^ x.exponent = 2 * 2 ^ e := by rw [hexponent, zpow_add_one₀ two_ne_zero, mul_comm]
    have hlower := hrounds.bounds.1
    rw [hcast, hx.reach_eq hmantissa (by omega), hsplit, ← mul_assoc, mul_le_mul_iff_of_pos_right (by positivity)] at hlower
    have hrounded : em.roundedMantissa = 2 ^ 53 := by
      apply hr.roundedMantissa_eq
      rw [if_pos (by decide)]
      push_cast
      exact ⟨by linarith, by linarith⟩
    rw [hrounded, hcast, hsplit]
    push_cast
    ring
  · have hrounded : em.roundedMantissa = x.mantissa := by
      apply hr.roundedMantissa_eq
      unfold Decimal.Dyadic.Rounds at hrounds
      split
      · rename_i heven
        rw [if_pos heven, mul_le_mul_iff_of_pos_right hpos, mul_le_mul_iff_of_pos_right hpos] at hrounds
        exact ⟨by linarith, hrounds.2⟩
      · rename_i hodd
        rw [if_neg hodd, mul_lt_mul_iff_of_pos_right hpos, mul_lt_mul_iff_of_pos_right hpos] at hrounds
        exact ⟨by linarith, hrounds.2⟩
    rw [hrounded]

/-- Rounding a number to a double, whatever the number was computed as. -/
theorem roundWithAccuracy_eq {accuracy : Accuracy} (hr : Represents (.ofMantissaAndAccuracy m accuracy) r)
    (he : e ≤ max (m.log2 + e - 52) (-1074)) (hx : x.WellFormed) (hrounds : x.Rounds (r * 2 ^ e)) :
    roundWithAccuracy Format.binary64 sign m e accuracy = .finite sign x.mantissa x.exponent hx.pos := by
  obtain ⟨em, s, hfirst, hs, hvalue⟩ := exists_represents hr he
  have hbounds := hr.bounds
  rw [mantissa_ofMantissaAndAccuracy] at hbounds
  obtain ⟨hlt, hfull⟩ := scaled_bounds hbounds.1 hbounds.2 rfl he hvalue
  set place := max ((m.log2 : ℤ) + e - 52) (-1074)
  have hlow : -1074 ≤ place := le_max_right _ _
  rw [hvalue] at hrounds
  obtain ⟨hrounded, hrest⟩ := hs.roundedMantissa_bounds hlt
  obtain ⟨em', e', hsecond, hsame, hlt', hlow', hfull'⟩ := exists_canonical hrounded hlow (hfull.imp_left hrest)
  rw [hs.roundedMantissa_mul hlt hlow hfull hx hrounds] at hsame
  obtain ⟨hmantissa, hexponent⟩ := places_unique hlt' hx.lt hlow' hx.low hfull' hx.full hsame
  simp only [roundWithAccuracy, hfirst, hsecond, hmantissa, hexponent]
  exact dif_neg hx.pos.ne'

end Binary64

end PlacementTree
