import PlacementTree.Proofs.Decimal.Nearest
import PlacementTree.Proofs.Decimal.Shortest

/-!
# A double is read as it was written

What is written for a finite double is one of the numbers that are rounded to it, and what is read is the double that a number is rounded
to. So a numeral with the sign and the number that a style writes for a double has the double as its value (`Numeral.value_eq`). Only zero
is not found this way: it is written and read by itself.
-/

namespace PlacementTree

open Float.Model.UnpackedFloat

namespace Decimal

open Binary64

variable {x : Binary64} {n : Numeral} {style : Style}

theorem Dyadic.exponent_le (h : x.isFinite = true) : (Dyadic.ofMagnitude x.magnitude).exponent ≤ 971 := by
  have hmagnitude : x.magnitude < infinityMagnitude := of_decide_eq_true h
  rw [infinityMagnitude] at hmagnitude
  rw [Dyadic.exponent_ofMagnitude]
  split <;> omega

theorem unpack_nearest_zero (exponent : ℤ) : (nearest 0 exponent).toModel.unpack = .zero .positive := by
  rw [nearest, if_pos rfl]
  rfl

/-- The sign is put on the nearest double. -/
theorem unpack_nearestSigned (negative : Bool) (digits : ℕ) (exponent : ℤ) :
    (nearestSigned negative digits exponent).toModel.unpack =
      if negative then (nearest digits exponent).toModel.unpack.neg else (nearest digits exponent).toModel.unpack := by
  cases negative with
  | false => rfl
  | true => exact unpack_neg

theorem isFinite_bits {x : Float} (h : x.isFinite = true) : (⟨x.toBits⟩ : Binary64).isFinite = true := by
  have hbits : (⟨x.toBits⟩ : Binary64).toFloat = x := Float.ofBits_toBits x
  rwa [← isFinite_toFloat, hbits]

/-- A numeral with the sign and the number that are written for a finite double has the double as its value. -/
theorem Numeral.value_eq (hx : x.isFinite = true) (hnegative : n.negative = x.negative) (hrat : n.rat = style.rat x) : n.value = x.toFloat := by
  apply eq_of_unpack
  have hmagnitude : x.magnitude < infinityMagnitude := of_decide_eq_true hx
  rw [unpack_toFloat, Binary64.ofMagnitude, if_neg (by omega), if_neg (by omega), value, hnegative]
  have hpower : (0 : ℚ) < 10 ^ (n.exponent - n.fraction.length) := by positivity
  unfold Style.rat at hrat
  split
  · rename_i hzero
    rw [if_pos hzero, Numeral.rat, mul_eq_zero_iff_right hpower.ne', Nat.cast_eq_zero] at hrat
    rw [hrat, unpack_nearestSigned, unpack_nearest_zero, sign]
    cases x.negative <;> rfl
  · rename_i hzero
    have hrounds := Dyadic.rounds_shortest style.tie hzero
    have hwell := Dyadic.wellFormed_ofMagnitude hzero
    have hfits := Dyadic.exponent_le hx
    rw [if_neg hzero] at hrat
    rw [← hrat, Numeral.rat] at hrounds
    have hpos : 0 < ofDigits (n.whole ++ n.fraction) := by
      apply Nat.pos_of_ne_zero
      intro hnone
      have hlow := (hrounds.between hwell hfits).1
      rw [hnone, Nat.cast_zero, zero_mul] at hlow
      exact absurd hlow (not_lt.mpr (by positivity))
    rw [unpack_nearestSigned, Int.ofNat_eq_natCast, unpack_nearest hpos hwell hfits hrounds, sign]
    cases x.negative <;> rfl

/-- Every finite double stands in its text. -/
theorem readsBack {x : Float} (h : x.isFinite = true) : ReadsBack x := by
  rcases write_configuration_cases x with ⟨-, n, hn, htext, hnegative, hrat⟩ | ⟨rfl, -⟩ | ⟨negative, rfl, -⟩
  · rw [ReadsBack, htext, hn.ofText_text, Numeral.value_eq (isFinite_bits h) hnegative hrat]
    exact Float.ofBits_toBits x
  · cases h
  · cases negative <;> cases h

end Decimal

end PlacementTree
