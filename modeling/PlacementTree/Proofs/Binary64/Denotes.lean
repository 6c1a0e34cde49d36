import PlacementTree.Binary64
import PlacementTree.Proofs.Binary64.Operations

/-!
# Arithmetic and comparisons of doubles

`Denotes x q` says that the double `x` stands for the number `q`. Doubles compare as the numbers they stand for (`lt_iff_of_denotes`,
`le_iff_of_denotes`), and sums, differences and products stand for the nearest number of the grid, as long as the exact result is not too
large (`denotes_add`, `denotes_sub`, `denotes_mul`). A product of numbers that are not negative may only overflow to infinity
(`mul_finite_or_infinite`), which then spreads: infinity by infinity is no number.

A double travels as its bits and is the same afterwards (`toFloat_ofFloat`).
-/

namespace PlacementTree.Binary64

open Float.Model (Format UnpackedFloat)
open Float.Model.UnpackedFloat

variable {x y : Float} {p q : ℚ}

/-- What a double stands for. -/
def Denotes (x : Float) (q : ℚ) : Prop := ratOf? x.toModel.unpack = some q

/-- Positive infinity. -/
def Infinite (x : Float) : Prop := x.toModel.unpack = .infinity .positive

theorem canonical_toModel (x : Float) : Canonical x.toModel.unpack := (unpack_wellFormed _).1

theorem Denotes.onGrid (h : Denotes x p) : OnGrid p := onGrid_of_ratOf? (canonical_toModel x) h

theorem Denotes.abs_le_largest (h : Denotes x p) : |p| ≤ largest :=
  (fits_iff (canonical_toModel x) h).mp (unpack_wellFormed _).2

/-- The finite doubles are those that stand for a number. -/
theorem isFinite_iff : x.isFinite = true ↔ ∃ q, Denotes x q := by
  show x.toModel.unpack.isFinite = true ↔ _
  unfold Denotes
  cases x.toModel.unpack <;> simp [UnpackedFloat.isFinite, ratOf?]

theorem isNaN_iff : x.isNaN = true ↔ x.toModel.unpack = .notANumber := by
  show x.toModel.unpack.isNaN = true ↔ _
  exact UnpackedFloat.isNaN_iff

/-- A double that does not stand for a number is an infinity or no number. -/
theorem exists_denotes (hnumber : x.toModel.unpack ≠ .notANumber) (hfinite : ∀ sign, x.toModel.unpack ≠ .infinity sign) :
    ∃ q, Denotes x q := by
  unfold Denotes
  cases hu : x.toModel.unpack with
  | infinity sign => exact absurd hu (hfinite sign)
  | notANumber => exact absurd hu hnumber
  | zero sign => exact ⟨_, rfl⟩
  | finite sign m e hm => exact ⟨_, rfl⟩

theorem Denotes.isNaN_eq (h : Denotes x p) : x.isNaN = false := by
  show x.toModel.unpack.isNaN = false
  rcases ratOf?_cases h with ⟨sign, hx, -⟩ | ⟨sign, m, e, hm, hx, -⟩ <;> rw [hx] <;> rfl

/-! ## Comparisons -/

theorem lt_iff_unpack : x < y ↔ UnpackedFloat.lt x.toModel.unpack y.toModel.unpack = true := decide_eq_true_iff

theorem le_iff_unpack : x ≤ y ↔ UnpackedFloat.le x.toModel.unpack y.toModel.unpack = true := decide_eq_true_iff

theorem lt_iff_of_denotes (hx : Denotes x p) (hy : Denotes y q) : x < y ↔ p < q := by
  rw [lt_iff_unpack, UnpackedFloat.lt, compare_of_ratOf? (canonical_toModel x) (canonical_toModel y) hx hy, beq_iff_eq, Option.some.injEq,
    compare_lt_iff_lt]

theorem le_iff_of_denotes (hx : Denotes x p) (hy : Denotes y q) : x ≤ y ↔ p ≤ q := by
  rw [le_iff_unpack, UnpackedFloat.le, compare_of_ratOf? (canonical_toModel x) (canonical_toModel y) hx hy, Option.any_some,
    Ordering.isLE_iff_ne_gt]
  exact compare_le_iff_le

/-! ## From zero to one -/

theorem denotes_zero : Denotes 0 0 := rfl

theorem denotes_one : Denotes 1 1 := by
  show some ((4503599627370496 : ℕ) * (2 : ℚ) ^ (-52 : ℤ)) = some 1
  norm_num

/-- The double stands for a number from zero to one. -/
def InUnit (x : Float) : Prop := ∃ q, Denotes x q ∧ 0 ≤ q ∧ q ≤ 1

theorem inUnit_iff : InUnit x ↔ 0 ≤ x ∧ x ≤ 1 := by
  constructor
  · rintro ⟨q, hq, hzero, hone⟩
    exact ⟨(le_iff_of_denotes denotes_zero hq).mpr hzero, (le_iff_of_denotes hq denotes_one).mpr hone⟩
  · rintro ⟨hzero, hone⟩
    have hx : ∃ q, Denotes x q := by
      rw [le_iff_unpack] at hzero hone
      apply exists_denotes
      · intro h
        rw [h] at hone
        cases hone
      · intro sign h
        rw [h] at hzero hone
        cases sign
        · cases hzero
        · cases hone
    obtain ⟨q, hq⟩ := hx
    exact ⟨q, hq, (le_iff_of_denotes denotes_zero hq).mp hzero, (le_iff_of_denotes hq denotes_one).mp hone⟩

/-- Neither no number nor outside the range is inside it. -/
theorem inUnit_of_not_lt (h : x.isNaN = false) (hzero : ¬ x < 0) (hone : ¬ 1 < x) : InUnit x := by
  have hx : ∃ q, Denotes x q := by
    rw [lt_iff_unpack] at hzero hone
    apply exists_denotes
    · rwa [← Bool.not_eq_true, isNaN_iff] at h
    · intro sign hu
      rw [hu] at hzero hone
      cases sign
      · exact hzero rfl
      · exact hone rfl
  obtain ⟨q, hq⟩ := hx
  rw [lt_iff_of_denotes hq denotes_zero, not_lt] at hzero
  rw [lt_iff_of_denotes denotes_one hq, not_lt] at hone
  exact ⟨q, hq, hzero, hone⟩

/-! ## Operations -/

theorem unpack_add : (x + y).toModel.unpack =
    unpack Format.binary64 (pack Format.binary64 (add Format.binary64 x.toModel.unpack y.toModel.unpack)) := rfl

theorem unpack_sub : (x - y).toModel.unpack =
    unpack Format.binary64 (pack Format.binary64 (sub Format.binary64 x.toModel.unpack y.toModel.unpack)) := rfl

theorem unpack_mul : (x * y).toModel.unpack =
    unpack Format.binary64 (pack Format.binary64 (mul Format.binary64 x.toModel.unpack y.toModel.unpack)) := rfl

theorem unpack_div : (x / y).toModel.unpack =
    unpack Format.binary64 (pack Format.binary64 (div Format.binary64 x.toModel.unpack y.toModel.unpack)) := rfl

/-- A negated double is the same number with the other sign. -/
theorem unpack_neg : (-x).toModel.unpack = x.toModel.unpack.neg := by
  have hpack : (-x).toModel.unpack = unpack Format.binary64 (pack Format.binary64 x.toModel.unpack.neg) := rfl
  obtain ⟨hcanonical, hfits⟩ : Canonical x.toModel.unpack ∧ Fits x.toModel.unpack := unpack_wellFormed _
  rw [hpack]
  generalize x.toModel.unpack = u at hcanonical hfits ⊢
  cases u with
  | notANumber => exact unpack_pack trivial trivial
  | infinity sign => exact unpack_pack trivial trivial
  | zero sign => exact unpack_pack trivial trivial
  | finite sign m e hm => exact unpack_pack hcanonical hfits

theorem denotes_add (hx : Denotes x p) (hy : Denotes y q) (h : |p + q| ≤ largest) : ∃ r, Denotes (x + y) r ∧ Nearest (p + q) r :=
  ratOf?_unpack_pack (rounded_add (canonical_toModel x) (canonical_toModel y) hx hy) h

theorem denotes_sub (hx : Denotes x p) (hy : Denotes y q) (h : |p - q| ≤ largest) : ∃ r, Denotes (x - y) r ∧ Nearest (p - q) r :=
  ratOf?_unpack_pack (rounded_sub (canonical_toModel x) (canonical_toModel y) hx hy) h

theorem denotes_mul (hx : Denotes x p) (hy : Denotes y q) (h : |p * q| ≤ largest) : ∃ r, Denotes (x * y) r ∧ Nearest (p * q) r :=
  ratOf?_unpack_pack (rounded_mul (canonical_toModel x) (canonical_toModel y) hx hy) h

/-- An integer becomes the nearest double. -/
theorem denotes_normalize {n : ℕ} (hn : n ≤ 2 ^ 64) :
    ∃ y, ratOf? (unpack Format.binary64 (pack Format.binary64 (UnpackedFloat.normalize Format.binary64 n 0 .positive))) = some y ∧
      Nearest n y := by
  have h := rounded_normalize n 0 .positive
  rw [zpow_zero, mul_one, Int.cast_natCast] at h
  refine ratOf?_unpack_pack h ?_
  rw [abs_of_nonneg (Nat.cast_nonneg n)]
  calc (n : ℚ) ≤ 2 ^ 64 := by exact_mod_cast hn
    _ ≤ largest := two_pow_le_largest (by norm_num)

theorem denotes_uint32 (n : UInt32) : ∃ q, Denotes n.toFloat q ∧ Nearest n.toNat q :=
  denotes_normalize (by have := n.toNat_lt; omega)

theorem denotes_uint64 (n : UInt64) : ∃ q, Denotes n.toFloat q ∧ Nearest n.toNat q :=
  denotes_normalize n.toNat_lt.le

/-- A product of numbers that are not negative is rounded to the grid, or too large and infinite. -/
theorem mul_finite_or_infinite (hx : Denotes x p) (hy : Denotes y q) (hp : 0 ≤ p) (hq : 0 ≤ q) :
    (∃ r, Denotes (x * y) r ∧ Nearest (p * q) r) ∨ Infinite (x * y) := by
  obtain ⟨hc, r, hr, hnearest⟩ := rounded_mul (canonical_toModel x) (canonical_toModel y) hx hy
  by_cases hfits : Fits (mul Format.binary64 x.toModel.unpack y.toModel.unpack)
  · refine .inl ⟨r, ?_, hnearest⟩
    rw [Denotes, unpack_mul, unpack_pack hc hfits]
    exact hr
  · right
    rw [Infinite, unpack_mul]
    rcases ratOf?_cases hr with ⟨sign, hmul, -⟩ | ⟨sign, m, e, hm, hmul, rfl⟩
    · rw [hmul] at hfits
      exact absurd trivial hfits
    · -- A product below zero would be rounded to a number that is.
      have hnonneg := hnearest.nonneg (mul_nonneg hp hq)
      have hpos : (0 : ℚ) < m * 2 ^ e := by positivity
      rw [hmul] at hfits ⊢
      cases sign with
      | negative =>
        rw [signed] at hnonneg
        linarith
      | positive => exact unpack_pack_of_not_fits hfits

/-! ## Beyond the numbers -/

/-- Taking a number from infinity leaves infinity. -/
theorem Infinite.sub_denotes (hx : Infinite x) (hy : Denotes y q) : Infinite (x - y) := by
  rw [Infinite] at hx
  have hsub : sub Format.binary64 x.toModel.unpack y.toModel.unpack = .infinity .positive := by
    rcases ratOf?_cases hy with ⟨sign, hv, -⟩ | ⟨sign, m, e, hm, hv, -⟩ <;> rw [hx, hv] <;> rfl
  rw [Infinite, unpack_sub, hsub]
  exact unpack_packedInfinity

/-- Infinity by infinity is no number. -/
theorem Infinite.isNaN_div (hx : Infinite x) (hy : Infinite y) : (x / y).isNaN = true := by
  rw [Infinite] at hx hy
  rw [isNaN_iff, unpack_div, hx, hy]
  exact unpack_packedNaN

/-- A number by a number that is not zero may be infinite, but not no number. -/
theorem isNaN_div_eq (hx : Denotes x p) (hy : Denotes y q) (hq : q ≠ 0) : (x / y).isNaN = false := by
  rw [← Bool.not_eq_true, isNaN_iff, unpack_div]
  apply unpack_pack_ne_notANumber
  rcases ratOf?_cases hy with ⟨sign', hv, rfl⟩ | ⟨sign', m', e', hm', hv, -⟩
  · exact absurd rfl hq
  · rcases ratOf?_cases hx with ⟨sign, hu, -⟩ | ⟨sign, m, e, hm, hu, -⟩ <;> rw [hu, hv]
    · simp [div]
    · simp only [div, roundWithAccuracy]
      split <;> simp

theorem isNaN_mul_right (hy : y.isNaN = true) : (x * y).isNaN = true := by
  rw [isNaN_iff] at hy
  have hmul : mul Format.binary64 x.toModel.unpack y.toModel.unpack = .notANumber := by
    rw [hy]
    cases x.toModel.unpack <;> rfl
  rw [isNaN_iff, unpack_mul, hmul]
  exact unpack_packedNaN

theorem isNaN_add (h : x.isNaN = true ∨ y.isNaN = true) : (x + y).isNaN = true := by
  rw [isNaN_iff, isNaN_iff] at h
  have hadd : add Format.binary64 x.toModel.unpack y.toModel.unpack = .notANumber := by
    rcases h with h | h <;> rw [h]
    · rfl
    · cases x.toModel.unpack <;> rfl
  rw [isNaN_iff, unpack_add, hadd]
  exact unpack_packedNaN

/-! ## Doubles as they travel -/

/-- What is not lost as no number keeps its bits. -/
theorem ofFloat_eq (h : x.isNaN = false) : ofFloat x = ⟨x.toBits⟩ := if_neg (ne_true_of_eq_false h)

theorem ofFloat_of_isNaN (h : x.isNaN = true) : ofFloat x = indefinite := if_pos h

/-- A double is read as it was stored. -/
@[simp] theorem toFloat_ofFloat (x : Float) : (ofFloat x).toFloat = x := by
  cases h : x.isNaN with
  | true =>
    rw [ofFloat_of_isNaN h, of_decide_eq_true (Float.isNaN_eq_decide_eq_nan.symm.trans h)]
    rfl
  | false =>
    rw [ofFloat_eq h]
    exact Float.ofBits_toBits x

/-- Larger bits than those of infinity are no number. -/
theorem magnitude_le_of_unpack {b : UInt64} (h : unpack Format.binary64 b.toBitVec ≠ .notANumber) :
    (⟨b⟩ : Binary64).magnitude ≤ infinityMagnitude := by
  by_contra hlarge
  have hmagnitude : infinityMagnitude < b.toBitVec.toNat % 2 ^ 63 := not_le.mp hlarge
  unfold infinityMagnitude at hmagnitude
  have hexponent : @unpackExponent Format.binary64 b.toBitVec = -1#11 := by
    apply BitVec.eq_of_toNat_eq
    rw [toNat_unpackExponent, show (-1#11).toNat = 2047 from rfl]
    omega
  have hmantissa : @unpackMantissa Format.binary64 b.toBitVec ≠ 0#52 := by
    intro hzero
    have := congrArg BitVec.toNat hzero
    rw [toNat_unpackMantissa, BitVec.toNat_zero] at this
    omega
  apply h
  simp only [unpack]
  rw [if_pos hexponent, if_neg hmantissa]

/-- The bits of a number rank above those of an operation without a number as its result. -/
theorem rank_indefinite_lt (h : x.isNaN = false) : indefinite.rank < (ofFloat x).rank := by
  have hle : (⟨x.toBits⟩ : Binary64).magnitude ≤ infinityMagnitude := by
    apply magnitude_le_of_unpack
    rwa [← Bool.not_eq_true, isNaN_iff] at h
  have hbottom : indefinite.rank = -1 - ((infinityMagnitude + 2 ^ 51 : ℕ) : ℤ) := by decide
  rw [ofFloat_eq h, hbottom, rank]
  split <;> rw [Int.ofNat_eq_natCast] <;> omega

end PlacementTree.Binary64
