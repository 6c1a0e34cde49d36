import PlacementTree.Proofs.Binary64.Denotes
import PlacementTree.Proofs.Decimal.Written

/-!
# The total order of doubles and the order of numbers

The 64 bits of a double are its sign and its magnitude, and the magnitude says what it is: zero, a finite number, an infinity or no number
(`ofMagnitude`). Magnitudes are in the order of the numbers that they stand for, so the total order of the patterns agrees with that of the
numbers (`rank_lt_of_toFloat_lt`). Equal numbers have equal bits, but for the two zeros (`eq_or_zeros_of_beq`).
-/

namespace PlacementTree

/-! ## What a pattern stands for -/

namespace Decimal.Dyadic

theorem mantissa_ofMagnitude (magnitude : Nat) :
    (ofMagnitude magnitude).mantissa =
      if magnitude / 2 ^ 52 = 0 then magnitude % 2 ^ 52 else 2 ^ 52 + magnitude % 2 ^ 52 := by
  unfold ofMagnitude exponentUnit
  by_cases h : magnitude / 2 ^ 52 = 0
  · exact (congrArg mantissa (if_pos h)).trans (if_pos h).symm
  · exact (congrArg mantissa (if_neg h)).trans (if_neg h).symm

theorem exponent_ofMagnitude (magnitude : Nat) :
    (ofMagnitude magnitude).exponent = if magnitude / 2 ^ 52 = 0 then -1074 else ((magnitude / 2 ^ 52 : Nat) : Int) - 1075 := by
  unfold ofMagnitude exponentUnit
  by_cases h : magnitude / 2 ^ 52 = 0
  · exact (congrArg exponent (if_pos h)).trans (if_pos h).symm
  · exact (congrArg exponent (if_neg h)).trans (if_neg h).symm

end Decimal.Dyadic

namespace Binary64

open Float.Model (Format UnpackedFloat)
open Float.Model.UnpackedFloat
open Decimal (Dyadic)

variable {x y : Binary64} {m n : ℕ}

/-- The sign that the sign bit says. -/
def sign (x : Binary64) : Sign := if x.negative then .negative else .positive

/-- What the bits without the sign stand for. -/
def ofMagnitude (sign : Sign) (magnitude : ℕ) : UnpackedFloat :=
  if infinityMagnitude < magnitude then .notANumber
  else if magnitude = infinityMagnitude then .infinity sign
  else if h : magnitude = 0 then .zero sign
  else .finite sign (Dyadic.ofMagnitude magnitude).mantissa (Dyadic.ofMagnitude magnitude).exponent (Dyadic.mantissa_pos h)

theorem ofBitVec_unpackSign (x : Binary64) : Sign.ofBitVec (@unpackSign Format.binary64 x.bits.toBitVec) = x.sign := by
  have hlt : x.bits.toNat < 2 ^ 64 := x.bits.toNat_lt
  have hbit : (@unpackSign Format.binary64 x.bits.toBitVec).toNat = x.bits.toNat / 2 ^ 63 := by
    simp [unpackSign, Nat.shiftRight_eq_div_pow]
    omega
  have hzero : @unpackSign Format.binary64 x.bits.toBitVec = 0#1 ↔ ¬ x.negative = true := by
    rw [← BitVec.toNat_inj, hbit, BitVec.toNat_zero, negative, signBit, decide_eq_true_eq]
    omega
  rw [Sign.ofBitVec, sign]
  by_cases hneg : x.negative = true
  · rw [if_pos hneg, if_neg (by simp [hzero, hneg])]
  · rw [if_neg hneg, if_pos (hzero.mpr hneg)]

/-- A pattern unpacks to what its magnitude stands for. -/
theorem unpack_bits (x : Binary64) : unpack Format.binary64 x.bits.toBitVec = ofMagnitude x.sign x.magnitude := by
  have hbias : Format.binary64.exponentBias = 1023 := rfl
  have hfraction : (@unpackMantissa Format.binary64 x.bits.toBitVec).toNat = x.magnitude % 2 ^ 52 := by
    rw [toNat_unpackMantissa, magnitude, signBit]
    show x.bits.toNat % 2 ^ 52 = _
    omega
  have hscale : (@unpackExponent Format.binary64 x.bits.toBitVec).toNat = x.magnitude / 2 ^ 52 := by
    rw [toNat_unpackExponent, magnitude, signBit]
    show x.bits.toNat / 2 ^ 52 % 2 ^ 11 = _
    omega
  have hmantissa : @unpackMantissa Format.binary64 x.bits.toBitVec = 0#52 ↔ x.magnitude % 2 ^ 52 = 0 := by
    rw [← BitVec.toNat_inj, hfraction, BitVec.toNat_zero]
  have hones : @unpackExponent Format.binary64 x.bits.toBitVec = -1#11 ↔ x.magnitude / 2 ^ 52 = 2047 := by
    rw [← BitVec.toNat_inj, hscale]
    rfl
  have hnone : @unpackExponent Format.binary64 x.bits.toBitVec = 0#11 ↔ x.magnitude / 2 ^ 52 = 0 := by
    rw [← BitVec.toNat_inj, hscale, BitVec.toNat_zero]
  have hlt : x.magnitude < 2 ^ 63 := Nat.mod_lt _ (by decide)
  simp only [unpack, hbias, toNat_implicit_append, ofBitVec_unpackSign, hones, hnone, hmantissa, hfraction, hscale]
  unfold ofMagnitude infinityMagnitude
  split_ifs <;> try first | omega | rfl
  · rename_i hnone _ _ _ _
    rw [finite.injEq, Dyadic.mantissa_ofMagnitude, Dyadic.exponent_ofMagnitude, if_pos hnone, if_pos hnone]
    exact ⟨rfl, rfl, by omega⟩
  · rename_i hnone _ _ _
    rw [finite.injEq, Dyadic.mantissa_ofMagnitude, Dyadic.exponent_ofMagnitude, if_neg hnone, if_neg hnone]
    exact ⟨rfl, rfl, by omega⟩

/-- A pattern is the same when it is read as a double. -/
theorem unpack_toFloat (x : Binary64) : x.toFloat.toModel.unpack = ofMagnitude x.sign x.magnitude := by
  rw [← unpack_bits]
  exact unpack_pack (unpack_wellFormed _).1 (unpack_wellFormed _).2

/-- The bits say whether a double is finite. -/
theorem isFinite_toFloat (x : Binary64) : x.toFloat.isFinite = x.isFinite := by
  show x.toFloat.toModel.unpack.isFinite = _
  rw [unpack_toFloat]
  unfold ofMagnitude isFinite
  split_ifs <;> simp_all [UnpackedFloat.isFinite] <;> omega

/-! ## The order -/

/-- The smaller of two finite numbers has the lower last place, or the smaller mantissa. Either makes its bits the smaller ones. -/
theorem lt_of_compare_places
    (h : ((compare (Dyadic.ofMagnitude m).exponent (Dyadic.ofMagnitude n).exponent).then
      (compare (Dyadic.ofMagnitude m).mantissa (Dyadic.ofMagnitude n).mantissa)) = .lt) : m < n := by
  rw [Ordering.then_eq_lt, compare_lt_iff_lt, compare_eq_iff_eq, compare_lt_iff_lt] at h
  simp only [Dyadic.mantissa_ofMagnitude, Dyadic.exponent_ofMagnitude] at h
  split_ifs at h <;> omega

theorem lt_of_lt_positive (h : UnpackedFloat.lt (ofMagnitude .positive m) (ofMagnitude .positive n) = true) : m < n := by
  unfold ofMagnitude at h
  split_ifs at h <;> try first | omega | cases h
  rw [UnpackedFloat.lt, beq_iff_eq, UnpackedFloat.compare, Option.some.injEq] at h
  exact lt_of_compare_places h

theorem lt_of_lt_negative (h : UnpackedFloat.lt (ofMagnitude .negative m) (ofMagnitude .negative n) = true) : n < m := by
  unfold ofMagnitude at h
  split_ifs at h <;> try first | omega | cases h
  rw [UnpackedFloat.lt, beq_iff_eq, UnpackedFloat.compare, Option.some.injEq, Ordering.swap_then, ← Std.OrientedCmp.eq_swap,
    ← Std.OrientedCmp.eq_swap] at h
  exact lt_of_compare_places h

theorem not_lt_positive_negative : ¬ UnpackedFloat.lt (ofMagnitude .positive m) (ofMagnitude .negative n) = true := by
  unfold ofMagnitude
  split_ifs <;> exact Bool.false_ne_true

/-- The smaller number ranks lower. -/
theorem rank_lt_of_toFloat_lt (h : x.toFloat < y.toFloat) : x.rank < y.rank := by
  rw [lt_iff_unpack, unpack_toFloat, unpack_toFloat, sign, sign] at h
  unfold rank
  simp only [Int.ofNat_eq_natCast]
  split_ifs at h ⊢
  · have := lt_of_lt_negative h
    omega
  · omega
  · exact absurd h not_lt_positive_negative
  · have := lt_of_lt_positive h
    omega

/-! ## Equality -/

/-- A number keeps its bits when it is read as a double. -/
theorem toBits_toFloat (h : x.toFloat.isNaN = false) : x.toFloat.toBits = x.bits := by
  have hnumber : @isNaNBits Format.binary64 x.bits.toBitVec = false := by
    rw [← Bool.not_eq_true, isNaN_iff, unpack_toFloat, ← unpack_bits] at h
    rw [isNaNBits, decide_eq_false_iff_not]
    rintro ⟨hones, hmantissa⟩
    exact h (by simp only [unpack, if_pos hones, if_neg hmantissa])
  apply UInt64.toBitVec_inj.mp
  have hpack := @pack_unpack Format.binary64 x.bits.toBitVec
  rw [hnumber] at hpack
  exact hpack

/-- A double is what it unpacks to. -/
theorem eq_of_unpack {a b : Float} (h : a.toModel.unpack = b.toModel.unpack) : a = b := by
  have hbits : a.toBits = b.toBits := UInt64.toBitVec_inj.mp ((unpack_inj_of_valid a.toModel.valid b.toModel.valid).mp h)
  rw [← Float.ofBits_toBits a, ← Float.ofBits_toBits b, hbits]

/-- Equal numbers have equal bits, unless both are zeros. -/
theorem eq_or_zeros_of_beq (h : (x.toFloat == y.toFloat) = true) : x = y ∨ x.magnitude = 0 ∧ y.magnitude = 0 := by
  have hzero : ∀ {z : Binary64} {s : Sign}, z.toFloat.toModel.unpack = .zero s → z.magnitude = 0 := by
    intro z s hz
    rw [unpack_toFloat, ofMagnitude] at hz
    split_ifs at hz with _ _ hmagnitude
    exact hmagnitude
  obtain ⟨hx, hy, heq | ⟨hxzero, hyzero⟩ | ⟨hxzero, hyzero⟩⟩ := (beq_iff_ne_notANumber_and_eq _ _).mp h
  · left
    rw [Ne, ← isNaN_iff, Bool.not_eq_true] at hx hy
    have hsame : x.bits = y.bits := by rw [← toBits_toFloat hx, ← toBits_toFloat hy, eq_of_unpack heq]
    exact congrArg Binary64.mk hsame
  · exact .inr ⟨hzero hxzero, hzero hyzero⟩
  · exact .inr ⟨hzero hxzero, hzero hyzero⟩

end Binary64

end PlacementTree
