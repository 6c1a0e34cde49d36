import PlacementTree.Decimal.Shortest
import PlacementTree.Proofs.Binary64.Interval
import PlacementTree.Proofs.Decimal.Written

/-!
# The digits that are written are rounded to the double

The decimal that `Decimal.shortest` finds for a double is one of the numbers that are rounded to it (`Dyadic.rounds_shortest`). Whatever is
found on a grid is in the interval of the double, and the interval is just these numbers (`Dyadic.contains_interval`). On the grid of
seventeen digits something is found at last: one of the two neighbours of the double is within half a place, and so within a part in
`2 * 10 ^ 16` of it, while the interval reaches a part in `2 ^ 54` to both sides (`Dyadic.WellFormed.rounds_of_near`).
-/

namespace PlacementTree.Decimal

variable {x : Dyadic} {i : Interval} {q : ℚ}

/-! ## The interval of a double -/

namespace Interval

/-- The number is in the interval. -/
def Contains (i : Interval) (q : ℚ) : Prop :=
  if i.closed then i.low ≤ q * i.denominator ∧ q * i.denominator ≤ i.high
  else i.low < q * i.denominator ∧ q * i.denominator < i.high

theorem holds_iff (i : Interval) (units : Nat) : i.holds units = true ↔ i.Contains units := by
  unfold holds Contains
  cases i.closed
  · simp only [Bool.false_eq_true, if_false, Bool.and_eq_true, decide_eq_true_eq]
    exact_mod_cast Iff.rfl
  · simp only [if_true, Bool.and_eq_true, decide_eq_true_eq]
    exact_mod_cast Iff.rfl

/-- In another unit the interval holds the same numbers. -/
theorem contains_scale (i : Interval) (exponent : Int) (q : ℚ) : (i.scale exponent).Contains q ↔ i.Contains (q * 10 ^ exponent) := by
  have hpos : (0 : ℚ) < 10 ^ (-exponent).toNat := by positivity
  have hvalue : q * (i.denominator * 10 ^ exponent.toNat) = q * 10 ^ exponent * i.denominator * 10 ^ (-exponent).toNat := by
    rw [← zpow_mul_pow_toNat (by norm_num) exponent]
    ring
  unfold Contains scale
  simp only [Nat.pow_eq]
  push_cast
  rw [hvalue, mul_le_mul_iff_of_pos_right hpos, mul_le_mul_iff_of_pos_right hpos, mul_lt_mul_iff_of_pos_right hpos,
    mul_lt_mul_iff_of_pos_right hpos]

end Interval

/-- A quarter of the last place, over the denominator of the interval. -/
theorem quarter_places (e : ℤ) : (2 : ℚ) ^ (e - 2).toNat = 2 ^ e / 4 * 2 ^ (2 - e).toNat := by
  rw [← zpow_mul_pow_toNat two_ne_zero, neg_sub, zpow_sub₀ two_ne_zero]
  norm_num

/-- The interval of a double holds the numbers that are rounded to it. -/
theorem Dyadic.contains_interval (hx : 0 < x.mantissa) : x.interval.Contains q ↔ x.Rounds q := by
  have hpos : (0 : ℚ) < 2 ^ (2 - x.exponent).toNat := by positivity
  have hlow : ((if x.wideBelow then 4 * x.mantissa - 2 else 4 * x.mantissa - 1 : Nat) : ℚ) = 4 * (x.mantissa - x.reach) := by
    unfold reach
    split
    · rw [Nat.cast_sub (by omega)]
      push_cast
      ring
    · rw [Nat.cast_sub (by omega)]
      push_cast
      ring
  have hlower : 4 * (x.mantissa - x.reach) * (2 ^ x.exponent / 4 * 2 ^ (2 - x.exponent).toNat) =
      (x.mantissa - x.reach) * 2 ^ x.exponent * 2 ^ (2 - x.exponent).toNat := by ring
  have hupper : (4 * x.mantissa + 2) * (2 ^ x.exponent / 4 * 2 ^ (2 - x.exponent).toNat) =
      (x.mantissa + 1 / 2 : ℚ) * 2 ^ x.exponent * 2 ^ (2 - x.exponent).toNat := by ring
  unfold Interval.Contains Rounds interval
  simp only [Nat.pow_eq, beq_iff_eq]
  push_cast [hlow]
  rw [quarter_places, hlower, hupper, mul_le_mul_iff_of_pos_right hpos, mul_le_mul_iff_of_pos_right hpos, mul_lt_mul_iff_of_pos_right hpos,
    mul_lt_mul_iff_of_pos_right hpos]

/-- A number within a part in `2 ^ 54` of a double is rounded to it. -/
theorem Dyadic.WellFormed.rounds_of_near (hx : x.WellFormed) (h : |q - x.mantissa * 2 ^ x.exponent| * 2 ^ 54 < x.mantissa * 2 ^ x.exponent) :
    x.Rounds q := by
  have hpos : (0 : ℚ) < 2 ^ x.exponent := by positivity
  have hlt : (x.mantissa : ℚ) + 1 ≤ 2 ^ 53 := by exact_mod_cast hx.lt
  have hreach : (x.mantissa : ℚ) ≤ x.reach * 2 ^ 54 := by
    unfold reach
    split
    · linarith
    · rename_i hnarrow
      rw [(hx.narrow_iff.mp (by simpa using hnarrow)).1]
      norm_num
  have hhalf := x.reach_le
  have hnear : |q - x.mantissa * 2 ^ x.exponent| < x.reach * 2 ^ x.exponent := by
    have := mul_le_mul_of_nonneg_right hreach hpos.le
    linarith
  obtain ⟨hbelow, habove⟩ := abs_lt.mp hnear
  have hside := mul_le_mul_of_nonneg_right hhalf hpos.le
  have hlower : (x.mantissa - x.reach) * 2 ^ x.exponent < q := by linarith
  have hupper : q < (x.mantissa + 1 / 2) * 2 ^ x.exponent := by linarith
  unfold Rounds
  split
  · exact ⟨hlower.le, hupper.le⟩
  · exact ⟨hlower, hupper⟩

theorem Dyadic.interval_denominator_pos (x : Dyadic) : 0 < x.interval.denominator := Nat.pow_pos Nat.two_pos

/-- The value of the interval of a double is the double. -/
theorem Dyadic.interval_value (x : Dyadic) : (x.interval.value : ℚ) = x.mantissa * 2 ^ x.exponent * x.interval.denominator := by
  unfold interval
  simp only [Nat.pow_eq]
  push_cast
  rw [quarter_places]
  ring

/-! ## Seventeen digits are enough -/

/-- The leading digit stands at this power of ten. -/
theorem leadingExponent_le {numerator denominator : Nat} (hn : 0 < numerator) (hd : 0 < denominator) :
    (10 : ℚ) ^ leadingExponent numerator denominator ≤ numerator / denominator := by
  have hdenominator : (0 : ℚ) < denominator := by exact_mod_cast hd
  rw [le_div_iff₀ hdenominator]
  unfold leadingExponent
  split
  · rename_i hle
    have hdigits : 0 < (Nat.toDigits 10 (numerator / denominator)).length := Nat.length_toDigits_pos
    have hquotient := (Nat.le_div_iff_mul_le hd).mp (pow_length_toDigits_le (Nat.div_pos hle hd))
    rw [Int.ofNat_eq_natCast, ← Nat.cast_one, ← Nat.cast_sub hdigits, zpow_natCast]
    exact_mod_cast hquotient
  · have hdigits : 0 < (Nat.toDigits 10 (denominator / numerator)).length := Nat.length_toDigits_pos
    have hbelow := (Nat.div_lt_iff_lt_mul hn).mp (lt_pow_length_toDigits (denominator / numerator))
    generalize (Nat.toDigits 10 (denominator / numerator)).length = length at *
    dsimp only
    split
    · rename_i hfits
      rw [Int.ofNat_eq_natCast, ← neg_sub, zpow_neg, ← Nat.cast_one, ← Nat.cast_sub hdigits, zpow_natCast, inv_mul_le_iff₀ (by positivity),
        mul_comm]
      exact_mod_cast hfits
    · rw [Int.ofNat_eq_natCast, zpow_neg, zpow_natCast, inv_mul_le_iff₀ (by positivity)]
      exact_mod_cast hbelow.le

/-- If one of the neighbours of the value is in the interval, a number of units is found. -/
theorem Interval.exists_nearestUnits? {i : Interval} (tie : Tie)
    (h : i.holds (i.value / i.denominator) = true ∨ i.holds (i.value / i.denominator + 1) = true) :
    ∃ units, i.nearestUnits? tie = some units := by
  unfold nearestUnits?
  dsimp only
  split
  · simp_all
  · exact ⟨_, rfl⟩
  · exact ⟨_, rfl⟩
  · split
    · exact ⟨_, rfl⟩
    · split
      · exact ⟨_, rfl⟩
      · cases tie <;> exact ⟨_, rfl⟩

/-- Among the neighbours of a number one is within one half. -/
theorem near_floor {numerator denominator : Nat} (hd : 0 < denominator) :
    |((numerator / denominator : Nat) : ℚ) - numerator / denominator| ≤ 1 / 2 ∨
      |((numerator / denominator + 1 : Nat) : ℚ) - numerator / denominator| ≤ 1 / 2 := by
  have hdenominator : (0 : ℚ) < denominator := by exact_mod_cast hd
  have hlower : ((numerator / denominator : Nat) : ℚ) ≤ numerator / denominator := Nat.cast_div_le
  have hupper : (numerator : ℚ) / denominator < (numerator / denominator : Nat) + 1 := by
    rw [div_lt_iff₀ hdenominator]
    exact_mod_cast (Nat.div_lt_iff_lt_mul hd).mp (Nat.lt_succ_self _)
  rcases le_or_gt ((numerator : ℚ) / denominator - (numerator / denominator : Nat)) (1 / 2) with h | h
  · exact .inl (abs_le.mpr ⟨by linarith, by linarith⟩)
  · exact .inr (abs_le.mpr ⟨by push_cast; linarith, by push_cast; linarith⟩)

/-- On a grid on which the double has seventeen digits one of its neighbours is rounded to it. -/
theorem Dyadic.WellFormed.exists_nearestUnits? (hx : x.WellFormed) (tie : Tie) {exponent : Int}
    (h : 10 ^ 16 * 10 ^ exponent ≤ (x.mantissa * 2 ^ x.exponent : ℚ)) :
    ∃ units, (x.interval.scale exponent).nearestUnits? tie = some units := by
  have hpower : (0 : ℚ) < 10 ^ exponent := by positivity
  have hscaled : ((x.interval.scale exponent).value : ℚ) / (x.interval.scale exponent).denominator * 10 ^ exponent =
      x.mantissa * 2 ^ x.exponent := by
    have hup : (0 : ℚ) < 10 ^ (-exponent).toNat := by positivity
    have hdenominator : (0 : ℚ) < x.interval.denominator := by exact_mod_cast x.interval_denominator_pos
    simp only [Interval.scale, Nat.pow_eq]
    push_cast
    rw [x.interval_value, ← zpow_mul_pow_toNat (by norm_num) exponent]
    field_simp
  have hholds {units : Nat} (hnear : |(units : ℚ) - (x.interval.scale exponent).value / (x.interval.scale exponent).denominator| ≤ 1 / 2) :
      (x.interval.scale exponent).holds units = true := by
    rw [Interval.holds_iff, Interval.contains_scale, Dyadic.contains_interval hx.pos]
    apply hx.rounds_of_near
    calc |(units : ℚ) * 10 ^ exponent - x.mantissa * 2 ^ x.exponent| * 2 ^ 54
        = |(units : ℚ) - (x.interval.scale exponent).value / (x.interval.scale exponent).denominator| * 10 ^ exponent * 2 ^ 54 := by
          rw [← hscaled, ← sub_mul, abs_mul, abs_of_pos hpower]
      _ ≤ 1 / 2 * 10 ^ exponent * 2 ^ 54 := by gcongr
      _ < 10 ^ 16 * 10 ^ exponent := by linarith
      _ ≤ x.mantissa * 2 ^ x.exponent := h
  have hpos : 0 < (x.interval.scale exponent).denominator := Nat.mul_pos x.interval_denominator_pos (Nat.pow_pos (by decide))
  exact Interval.exists_nearestUnits? tie ((near_floor hpos).imp hholds hholds)

/-! ## What is found -/

/-- Dropping trailing zeros does not change the number. -/
theorem Scaled.rat_trimmed (fuel : Nat) (d : Scaled) : (Scaled.trimmed fuel d).rat = d.rat := by
  induction fuel generalizing d with
  | zero => rfl
  | succ fuel ih =>
    unfold Scaled.trimmed
    split
    · rename_i hzero
      simp only [Bool.and_eq_true, beq_iff_eq] at hzero
      have hdigits : (d.digits : ℚ) = 10 * (d.digits / 10 : Nat) := by exact_mod_cast (show d.digits = 10 * (d.digits / 10) by omega)
      rw [ih, Scaled.rat, Scaled.rat, hdigits, zpow_add_one₀ (by norm_num)]
      ring
    · rfl

theorem contains_of_firstOnGrids {tie : Tie} {lead : Int} {fuel count : Nat} {d : Scaled} (h : firstOnGrids i tie lead fuel count = some d) :
    i.Contains d.rat := by
  induction fuel generalizing count with
  | zero => cases h
  | succ fuel ih =>
    unfold firstOnGrids at h
    dsimp only at h
    split at h
    · rename_i units hunits
      cases h
      rw [Scaled.rat_trimmed, Scaled.rat, ← Interval.contains_scale, ← Interval.holds_iff]
      exact Interval.holds_of_nearestUnits? hunits
    · exact ih h

/-- The search ends on a grid on which there is something to find. -/
theorem exists_firstOnGrids {tie : Tie} {lead : Int} {fuel count last : Nat} (hfirst : count ≤ last) (hlast : last < count + fuel)
    (h : ∃ units, (i.scale (lead + 1 - last)).nearestUnits? tie = some units) : ∃ d, firstOnGrids i tie lead fuel count = some d := by
  induction fuel generalizing count with
  | zero => omega
  | succ fuel ih =>
    unfold firstOnGrids
    dsimp only
    split
    · exact ⟨_, rfl⟩
    · rename_i hnone
      rcases Nat.eq_or_lt_of_le hfirst with rfl | hlater
      · obtain ⟨units, hunits⟩ := h
        rw [Int.ofNat_eq_natCast, hunits] at hnone
        cases hnone
      · exact ih hlater (by omega)

/-- The decimal found for a double is one of the numbers that are rounded to it. -/
theorem Dyadic.rounds_shortest (tie : Tie) {magnitude : Nat} (h : magnitude ≠ 0) :
    (Dyadic.ofMagnitude magnitude).Rounds (shortest tie magnitude).rat := by
  have hx := Dyadic.wellFormed_ofMagnitude h
  unfold shortest
  set x := Dyadic.ofMagnitude magnitude
  have hdenominator : (x.interval.denominator : ℚ) ≠ 0 := by exact_mod_cast x.interval_denominator_pos.ne'
  have hlead := leadingExponent_le (Dyadic.interval_value_pos hx.pos) x.interval_denominator_pos
  rw [x.interval_value, mul_div_cancel_right₀ _ hdenominator] at hlead
  dsimp only
  generalize leadingExponent x.interval.value x.interval.denominator = lead at *
  have hgrid : ∃ units, (x.interval.scale (lead + 1 - (17 : Nat))).nearestUnits? tie = some units := by
    apply hx.exists_nearestUnits? tie
    rw [← zpow_natCast, ← zpow_add₀ (by norm_num), show ((16 : Nat) : Int) + (lead + 1 - (17 : Nat)) = lead by omega]
    exact hlead
  obtain ⟨d, hd⟩ : ∃ d, firstOnGrids x.interval tie lead 17 1 = some d := exists_firstOnGrids (by decide) (by decide) hgrid
  rw [hd, Option.getD_some, ← Dyadic.contains_interval hx.pos]
  exact contains_of_firstOnGrids hd

end PlacementTree.Decimal
