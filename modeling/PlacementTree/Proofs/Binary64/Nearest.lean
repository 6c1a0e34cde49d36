import Mathlib.Algebra.Order.Field.Power
import Mathlib.Algebra.Order.Field.Rat
import Mathlib.Algebra.Order.Floor.Ring
import Mathlib.Data.Rat.Floor
import Mathlib.Tactic.Linarith
import Mathlib.Tactic.NormNum
import Mathlib.Tactic.Ring

/-!
# Rounding to the nearest double

What doubles there are is said in the rationals: `OnGrid` is the grid of the doubles, as it would be if exponents had no upper end. An
operation on doubles gives the exact result rounded to the grid, `Nearest`. That is all that bounds of results need: rounding crosses no
double (`Nearest.le`, `Nearest.ge`), and what it adds is at most the distance to any double of one's choice.

How results are rounded in fact, by an integer nearest to a multiple of the last place, is covered by `nearest_of_scaled`.
-/

namespace PlacementTree.Binary64

/-- The numbers of at most 53 binary places, with none below the last place of the smallest double. -/
def OnGrid (q : ℚ) : Prop := ∃ m e : ℤ, |m| < 2 ^ 53 ∧ -1074 ≤ e ∧ q = m * 2 ^ e

/-- No number of the grid is closer to `q` than `y`. -/
structure Nearest (q y : ℚ) : Prop where
  onGrid : OnGrid y
  closest : ∀ z, OnGrid z → |y - q| ≤ |z - q|

variable {q x y z : ℚ} {e e' : ℤ}

/-- A multiple of a place is a multiple of every lower one. -/
theorem mul_lower_place (m : ℤ) (h : e ≤ e') : ((m * 2 ^ (e' - e).toNat : ℤ) : ℚ) * 2 ^ e = m * 2 ^ e' := by
  push_cast
  rw [← zpow_natCast, Int.toNat_of_nonneg (by omega), mul_assoc, ← zpow_add₀ two_ne_zero, sub_add_cancel]

/-! ## The grid -/

theorem OnGrid.neg (h : OnGrid q) : OnGrid (-q) := by
  obtain ⟨m, e, hm, he, rfl⟩ := h
  refine ⟨-m, e, by rwa [abs_neg], he, ?_⟩
  push_cast
  ring

/-- A multiple of a place that is not too low, with few enough places. The multiplier may be the first number that has too many. -/
theorem onGrid_of_le {n : ℤ} (hn : |n| ≤ 2 ^ 53) (he : -1074 ≤ e) : OnGrid (n * 2 ^ e) := by
  rcases lt_or_eq_of_le hn with hn | hn
  · exact ⟨n, e, hn, he, rfl⟩
  · -- The multiplier is a power of two up to its sign, which the next place takes over.
    have hhalf : ∃ k : ℤ, n = 2 * k ∧ |k| < 2 ^ 53 := by
      rcases abs_choice n with h | h
      · exact ⟨2 ^ 52, by omega, by norm_num⟩
      · exact ⟨-2 ^ 52, by omega, by norm_num⟩
    obtain ⟨k, rfl, hk⟩ := hhalf
    refine ⟨k, e + 1, hk, by omega, ?_⟩
    rw [zpow_add_one₀ two_ne_zero]
    push_cast
    ring

theorem onGrid_zero : OnGrid 0 := ⟨0, 0, by norm_num, by norm_num, by norm_num⟩

theorem onGrid_one : OnGrid 1 := ⟨1, 0, by norm_num, by norm_num, by norm_num⟩

/-- From a power of two on, the numbers of the grid are multiples of the place 52 below it. -/
theorem OnGrid.multiple (h : OnGrid q) (hq : 2 ^ (52 + e) ≤ q) : ∃ k : ℤ, q = k * 2 ^ e := by
  obtain ⟨m, e', hm, -, rfl⟩ := h
  have hpos : (0 : ℚ) < 2 ^ e' := by positivity
  have hbound : (m : ℚ) < 2 ^ 53 := by exact_mod_cast lt_of_abs_lt hm
  -- A number with a lower last place has too many places.
  have he : e ≤ e' := by
    by_contra hlt
    have hplaces : (2 : ℚ) ^ (53 + e') ≤ 2 ^ (52 + e) := zpow_le_zpow_right₀ one_le_two (by omega)
    have hsplit : (2 : ℚ) ^ (53 + e') = 2 ^ 53 * 2 ^ e' := by
      rw [zpow_add₀ two_ne_zero]
      norm_num
    have := mul_lt_mul_of_pos_right hbound hpos
    linarith
  exact ⟨_, (mul_lower_place m he).symm⟩

/-! ## Rounding -/

namespace Nearest

/-- Rounding crosses no number of the grid upwards. -/
theorem le (h : Nearest q y) (hz : OnGrid z) (hle : q ≤ z) : y ≤ z := by
  have hclosest := h.closest z hz
  rw [abs_of_nonneg (sub_nonneg.mpr hle)] at hclosest
  have := le_abs_self (y - q)
  linarith

/-- Rounding crosses no number of the grid downwards. -/
theorem ge (h : Nearest q y) (hz : OnGrid z) (hle : z ≤ q) : z ≤ y := by
  have hclosest := h.closest z hz
  rw [abs_of_nonpos (sub_nonpos.mpr hle)] at hclosest
  have := neg_abs_le (y - q)
  linarith

theorem nonneg (h : Nearest q y) (hq : 0 ≤ q) : 0 ≤ y := h.ge onGrid_zero hq

theorem neg (h : Nearest q y) : Nearest (-q) (-y) where
  onGrid := h.onGrid.neg
  closest z hz := by
    have hclosest := h.closest (-z) hz.neg
    rw [← abs_neg, ← abs_neg (z - -q)]
    ring_nf at hclosest ⊢
    exact hclosest

end Nearest

/-- An integer within one half of a number is as close to it as any other. -/
theorem abs_sub_le_of_half {n k : ℤ} (hn : |n - x| ≤ 1 / 2) : |n - x| ≤ |k - x| := by
  by_cases hk : k = n
  · rw [hk]
  · have hone : (1 : ℚ) ≤ |(k : ℚ) - n| := by
      have := Int.one_le_abs (sub_ne_zero.mpr hk)
      exact_mod_cast this
    have htriangle : |(k : ℚ) - n| ≤ |k - x| + |x - n| := abs_sub_le _ _ _
    rw [abs_sub_comm x] at htriangle
    linarith

/-- Rounding to an integer multiple of the last place gives the nearest number, if the number has all its places or the last place is the
lowest of all. -/
theorem nearest_of_scaled {n : ℤ} (hn : |n - x| ≤ 1 / 2) (hplaces : |n| ≤ 2 ^ 53) (he : -1074 ≤ e)
    (hfull : 2 ^ 52 ≤ x ∨ e = -1074) : Nearest (x * 2 ^ e) (n * 2 ^ e) := by
  have hpos : (0 : ℚ) < 2 ^ e := by positivity
  have hscale : ∀ k : ℚ, |k * 2 ^ e - x * 2 ^ e| = |k - x| * 2 ^ e := by
    intro k
    rw [← sub_mul, abs_mul, abs_of_pos hpos]
  refine ⟨onGrid_of_le hplaces he, fun z hz => ?_⟩
  rw [hscale]
  by_cases hmultiple : ∃ k : ℤ, z = k * 2 ^ e
  · obtain ⟨k, rfl⟩ := hmultiple
    rw [hscale]
    exact mul_le_mul_of_nonneg_right (abs_sub_le_of_half hn) hpos.le
  · -- A number between the multiples is below the smallest with all its places, which is between it and `x`.
    rcases hfull with hx | hlowest
    · have hz : z < 2 ^ (52 + e) := by
        by_contra hle
        exact hmultiple (hz.multiple (not_lt.mp hle))
      have hsplit : (2 : ℚ) ^ (52 + e) = 2 ^ 52 * 2 ^ e := by
        rw [zpow_add₀ two_ne_zero]
        norm_num
      have hnearer : |(n : ℚ) - x| ≤ x - 2 ^ 52 :=
        calc |(n : ℚ) - x| ≤ |((2 ^ 52 : ℤ) : ℚ) - x| := abs_sub_le_of_half hn
          _ = x - 2 ^ 52 := by rw [abs_sub_comm, Int.cast_pow, Int.cast_ofNat, abs_of_nonneg (sub_nonneg.mpr hx)]
      calc |(n : ℚ) - x| * 2 ^ e ≤ (x - 2 ^ 52) * 2 ^ e := mul_le_mul_of_nonneg_right hnearer hpos.le
        _ = x * 2 ^ e - 2 ^ (52 + e) := by rw [hsplit, sub_mul]
        _ ≤ x * 2 ^ e - z := by linarith
        _ ≤ |z - x * 2 ^ e| := by
          rw [abs_sub_comm]
          exact le_abs_self _
    · obtain ⟨m, e', -, he', rfl⟩ := hz
      exact absurd ⟨_, (mul_lower_place m (hlowest.trans_le he')).symm⟩ hmultiple

/-- A number of the grid is rounded to itself. -/
theorem Nearest.eq_of_onGrid (h : Nearest q y) (hq : OnGrid q) : y = q := by
  have hclosest := h.closest q hq
  rw [sub_self, abs_zero] at hclosest
  exact sub_eq_zero.mp (abs_nonpos_iff.mp hclosest)

/-- As long as 53 places above the place `e` are enough for a number, rounding moves it by at most half of that place. -/
theorem Nearest.abs_sub_le (h : Nearest q y) (hq : |q| ≤ 2 ^ (53 + e)) (he : -1074 ≤ e) : |y - q| ≤ 2 ^ e / 2 := by
  have hpos : (0 : ℚ) < 2 ^ e := by positivity
  have hsplit : (2 : ℚ) ^ (53 + e) = 2 ^ 53 * 2 ^ e := by
    rw [zpow_add₀ two_ne_zero]
    norm_num
  -- The nearest multiple of the place is on the grid.
  have hround := abs_sub_round (q / 2 ^ e)
  set n := round (q / 2 ^ e) with hn
  have hplaces : |n| ≤ 2 ^ 53 := by
    have hscaled : |q / 2 ^ e| ≤ 2 ^ 53 := by
      rw [abs_div, abs_of_pos hpos, div_le_iff₀ hpos, ← hsplit]
      exact hq
    have hbound : |(n : ℚ)| < ((2 ^ 53 + 1 : ℤ) : ℚ) := by
      have htriangle : |(n : ℚ)| ≤ |n - q / 2 ^ e| + |q / 2 ^ e| := by
        calc |(n : ℚ)| = |(n - q / 2 ^ e) + q / 2 ^ e| := by rw [sub_add_cancel]
          _ ≤ _ := abs_add_le _ _
      rw [abs_sub_comm] at hround
      push_cast
      linarith
    have : |n| < 2 ^ 53 + 1 := by exact_mod_cast hbound
    omega
  calc |y - q| ≤ |n * 2 ^ e - q| := h.closest _ (onGrid_of_le hplaces he)
    _ = |q / 2 ^ e - n| * 2 ^ e := by
      rw [abs_sub_comm, ← abs_of_pos hpos, ← abs_mul, abs_of_pos hpos, sub_mul, div_mul_cancel₀ _ hpos.ne']
    _ ≤ 1 / 2 * 2 ^ e := mul_le_mul_of_nonneg_right hround hpos.le
    _ = 2 ^ e / 2 := by ring

/-- Of two numbers of the grid the smaller one is at least the lowest place below the other. -/
theorem OnGrid.add_le_of_lt (hx : OnGrid x) (hy : OnGrid y) (h : x < y) : x + 2 ^ (-1074 : ℤ) ≤ y := by
  obtain ⟨m, e, -, he, rfl⟩ := hx
  obtain ⟨m', e', -, he', rfl⟩ := hy
  rw [← mul_lower_place m he, ← mul_lower_place m' he'] at h ⊢
  have hpos : (0 : ℚ) < 2 ^ (-1074 : ℤ) := by positivity
  have hless := Int.cast_lt.mp (lt_of_mul_lt_mul_right h hpos.le)
  rw [← add_one_mul]
  apply mul_le_mul_of_nonneg_right _ hpos.le
  exact_mod_cast Int.add_one_le_iff.mpr hless

/-- So the sign of a difference of numbers of the grid is not lost in rounding. -/
theorem Nearest.neg_iff_of_sub (h : Nearest (x - z) y) (hx : OnGrid x) (hz : OnGrid z) : y < 0 ↔ x < z := by
  constructor
  · intro hy
    by_contra hle
    exact absurd (h.nonneg (sub_nonneg.mpr (not_lt.mp hle))) (not_le.mpr hy)
  · intro hless
    have hlowest : OnGrid (-2 ^ (-1074 : ℤ)) := OnGrid.neg ⟨1, -1074, by norm_num, le_rfl, by norm_num⟩
    have hgap := hx.add_le_of_lt hz hless
    have hle : y ≤ -2 ^ (-1074 : ℤ) := h.le hlowest (by linarith)
    exact hle.trans_lt (neg_neg_of_pos (by positivity))

/-! ## Between zero and one -/

/-- What rounding adds to a number from zero to one is at most half a place of `2 ^ -53`. -/
theorem Nearest.le_add (h : Nearest q y) (hzero : 0 ≤ q) (hone : q ≤ 1) : y ≤ q + 2 ^ (-54 : ℤ) := by
  have hmoved := h.abs_sub_le (e := -53) (by rw [abs_of_nonneg hzero]; norm_num; exact hone) (by norm_num)
  have hle := le_abs_self (y - q)
  norm_num at hmoved ⊢
  linarith

/-- Rounding does not pass one before the middle between one and the next number of the grid. -/
theorem Nearest.le_one (h : Nearest q y) (hq : q ≤ 1 + 2 ^ (-54 : ℤ)) : y ≤ 1 := by
  by_contra hgt
  rw [not_le] at hgt
  obtain ⟨k, rfl⟩ := h.onGrid.multiple (e := -52) (by norm_num; exact hgt.le)
  have hk : 2 ^ 52 + 1 ≤ k := by
    have : ((2 ^ 52 : ℤ) : ℚ) < k := by
      norm_num at hgt ⊢
      linarith
    have := Int.cast_lt.mp this
    omega
  have hnext : ((2 ^ 52 + 1 : ℤ) : ℚ) ≤ k := Int.cast_le.mpr hk
  by_cases hone : q ≤ 1
  · exact absurd (h.le onGrid_one hone) (not_le.mpr hgt)
  · have hclosest := h.closest 1 onGrid_one
    rw [not_le] at hone
    rw [abs_of_nonpos (by linarith : (1 : ℚ) - q ≤ 0)] at hclosest
    have hle := le_abs_self ((k : ℚ) * 2 ^ (-52 : ℤ) - q)
    norm_num at hclosest hle hnext hq
    linarith

end PlacementTree.Binary64
