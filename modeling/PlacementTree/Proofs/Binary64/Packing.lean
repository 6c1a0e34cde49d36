import Mathlib
import PlacementTree.Proofs.Binary64.Rounding

/-!
# Packing doubles into 64 bits and unpacking them

A double is kept as 64 bits and unpacked for every operation. Every pattern unpacks to a canonical form that fits
(`unpack_wellFormed`), and a canonical form that fits comes back as it was (`unpack_pack`). A finite number too large for a double becomes
infinite (`unpack_pack_of_not_fits`).

The library's lemmas on packed patterns and on equal doubles are in none of the modules of Mathlib, but come with the whole of it, so this
module, where doubles are first unpacked, imports it whole.
-/

namespace PlacementTree

open Float.Model Float.Model.UnpackedFloat

/-- A mantissa with the implicit bit in front. -/
theorem toNat_implicit_append (mantissa : BitVec 52) : (1#1 ++ mantissa).toNat = 2 ^ 52 + mantissa.toNat := by
  rw [BitVec.toNat_append, ← Nat.shiftLeft_add_eq_or_of_lt mantissa.isLt]
  rfl

namespace Binary64

/-- The exponent is not too large for a double. -/
def Fits : UnpackedFloat → Prop
  | .finite _ _ exponent _ => exponent ≤ 971
  | _ => True

variable {sign : Sign} {m : ℕ} {e : ℤ} {hm : 0 < m} {u : UnpackedFloat}

/-! ## Packed numbers -/

/-- The parts of a pattern decide what it unpacks to. -/
theorem unpack_packComponents (exponent : BitVec 11) (mantissa : BitVec 52) :
    UnpackedFloat.unpack Format.binary64 (packComponents Format.binary64 sign exponent mantissa) =
      if exponent = -1#_ then if mantissa = 0#_ then .infinity sign else .notANumber
      else if exponent = 0#_ then
        if h : 0 < mantissa.toNat then .finite sign mantissa.toNat (-1074) h else .zero sign
      else
        .finite sign (2 ^ 52 + mantissa.toNat) (exponent.toNat - 1075) (Nat.add_pos_left (Nat.two_pow_pos 52) _) := by
  have hbias : Format.binary64.exponentBias = 1023 := rfl
  have hzero : mantissa = 0#52 ↔ ¬ 0 < mantissa.toNat := by
    rw [← BitVec.toNat_inj, BitVec.toNat_zero]
    omega
  simp only [UnpackedFloat.unpack, unpackExponent_packComponents, unpackMantissa_packComponents, unpackSign_packComponents,
    Sign.ofBitVec_toBitVec, toNat_implicit_append, hbias]
  split
  · rfl
  · split
    · rename_i hexponent
      rw [hexponent]
      by_cases hpos : 0 < mantissa.toNat
      · rw [dif_neg (hzero.not_left.mpr hpos), dif_pos hpos]
        rfl
      · rw [dif_pos (hzero.mpr hpos), dif_neg hpos]
    · rfl

theorem unpack_packedInfinity : UnpackedFloat.unpack Format.binary64 (packedInfinity Format.binary64 sign) = .infinity sign := by
  cases sign <;> rfl

/-- A finite number that fits is packed by its parts. Without all its places it has no exponent. -/
theorem pack_finite (hfits : e ≤ 971) (hcanonical : Canonical (.finite sign m e hm)) :
    UnpackedFloat.pack Format.binary64 (.finite sign m e hm) =
      packComponents Format.binary64 sign (if 2 ^ 52 ≤ m then BitVec.ofNat 11 (e + 1075).toNat else 0#11) (BitVec.ofNat 52 m) := by
  obtain ⟨hlt, hlow, hfull⟩ := hcanonical
  have hbias : Format.binary64.exponentBias = 1023 := rfl
  have hbits : Format.binary64.mantissaBits = 53 := rfl
  have hlog : m.log2 + 1 = 53 ↔ 2 ^ 52 ≤ m := by
    rw [Nat.succ_inj, Nat.log2_eq_iff hm.ne']
    exact ⟨And.left, fun h => ⟨h, hlt⟩⟩
  have hbiased : e + ((1023 : ℕ) : ℤ) + ((52 : ℕ) : ℤ) = e + 1075 := by omega
  simp only [UnpackedFloat.pack, hbias, hbits, hlog, hbiased]
  rw [if_neg (by omega)]
  split <;> rfl

/-- A canonical form that fits survives packing. -/
theorem unpack_pack (hcanonical : Canonical u) (hfits : Fits u) :
    UnpackedFloat.unpack Format.binary64 (UnpackedFloat.pack Format.binary64 u) = u := by
  cases u with
  | infinity sign => exact unpack_packedInfinity
  | notANumber => exact unpack_packedNaN
  | zero sign => exact unpack_packedZero
  | finite sign m e hm =>
    rw [pack_finite hfits hcanonical, unpack_packComponents]
    obtain ⟨hlt, hlow, hfull⟩ := hcanonical
    have hfits : e ≤ 971 := hfits
    by_cases hnormal : 2 ^ 52 ≤ m
    · have hexponent : (BitVec.ofNat 11 (e + 1075).toNat).toNat = (e + 1075).toNat := by
        rw [BitVec.toNat_ofNat]
        omega
      have hmantissa : 2 ^ 52 + (BitVec.ofNat 52 m).toNat = m := by
        rw [BitVec.toNat_ofNat]
        omega
      have hones : BitVec.ofNat 11 (e + 1075).toNat ≠ -1#11 := fun h => by
        have : (e + 1075).toNat = 2047 := hexponent.symm.trans (congrArg BitVec.toNat h)
        omega
      have hnone : BitVec.ofNat 11 (e + 1075).toNat ≠ 0#11 := fun h => by
        have : (e + 1075).toNat = 0 := hexponent.symm.trans (congrArg BitVec.toNat h)
        omega
      rw [if_pos hnormal, if_neg hones, if_neg hnone, finite.injEq, hexponent]
      exact ⟨rfl, hmantissa, by omega⟩
    · have hmantissa : (BitVec.ofNat 52 m).toNat = m := by
        rw [BitVec.toNat_ofNat]
        omega
      rw [if_neg hnormal, if_neg (by decide), if_pos rfl, dif_pos (hm.trans_eq hmantissa.symm), finite.injEq]
      exact ⟨rfl, hmantissa, by omega⟩

/-- A finite number that is too large for a double becomes infinite. -/
theorem unpack_pack_of_not_fits (h : ¬ Fits (.finite sign m e hm)) :
    UnpackedFloat.unpack Format.binary64 (UnpackedFloat.pack Format.binary64 (.finite sign m e hm)) = .infinity sign := by
  have hlarge : 971 < e := not_le.mp h
  have hbias : Format.binary64.exponentBias = 1023 := rfl
  simp only [UnpackedFloat.pack, hbias]
  rw [if_pos (by omega)]
  exact unpack_packedInfinity

/-- Only what is no number is packed as such. -/
theorem unpack_pack_ne_notANumber (h : u ≠ .notANumber) :
    UnpackedFloat.unpack Format.binary64 (UnpackedFloat.pack Format.binary64 u) ≠ .notANumber := by
  cases u with
  | infinity sign => simp [UnpackedFloat.pack, unpack_packedInfinity]
  | notANumber => exact absurd rfl h
  | zero sign => simp [UnpackedFloat.pack]
  | finite sign m e hm =>
    have hbias : Format.binary64.exponentBias = 1023 := rfl
    simp only [UnpackedFloat.pack, hbias]
    split
    · simp [unpack_packedInfinity]
    · rename_i hfits
      have hones : BitVec.ofNat 11 (e + (1023 : ℕ) + (52 : ℕ)).toNat ≠ -1#11 := fun hall => by
        have : (e + (1023 : ℕ) + (52 : ℕ)).toNat % 2 ^ 11 = 2047 := congrArg BitVec.toNat hall
        omega
      split <;> rw [unpack_packComponents]
      · rw [if_neg hones]
        split_ifs <;> simp
      · rw [if_neg (by decide), if_pos rfl]
        split_ifs <;> simp

/-! ## Patterns -/

/-- The mantissa bits of a pattern. -/
theorem toNat_unpackMantissa (b : BitVec 64) : (@unpackMantissa Format.binary64 b).toNat = b.toNat % 2 ^ 52 := by
  simp [unpackMantissa]

/-- The exponent bits of a pattern. -/
theorem toNat_unpackExponent (b : BitVec 64) : (@unpackExponent Format.binary64 b).toNat = b.toNat / 2 ^ 52 % 2 ^ 11 := by
  simp [unpackExponent, Nat.shiftRight_eq_div_pow]

/-- What a pattern unpacks to is canonical and fits. -/
theorem unpack_wellFormed (b : BitVec 64) :
    Canonical (UnpackedFloat.unpack Format.binary64 b) ∧ Fits (UnpackedFloat.unpack Format.binary64 b) := by
  have hbias : Format.binary64.exponentBias = 1023 := rfl
  have hmantissa : (@unpackMantissa Format.binary64 b).toNat < 2 ^ 52 := (@unpackMantissa Format.binary64 b).isLt
  have hexponent : (@unpackExponent Format.binary64 b).toNat < 2 ^ 11 := (@unpackExponent Format.binary64 b).isLt
  simp only [UnpackedFloat.unpack, hbias, toNat_implicit_append]
  split
  · split <;> exact ⟨trivial, trivial⟩
  · rename_i hones
    split
    · rename_i hnone
      split
      · exact ⟨trivial, trivial⟩
      · rw [hnone]
        exact ⟨⟨by omega, by decide, .inr rfl⟩, show (-1074 : ℤ) ≤ 971 by decide⟩
    · rename_i hsome
      have hlt : (@unpackExponent Format.binary64 b).toNat ≠ 2047 := fun h => hones (BitVec.toNat_inj.mp h)
      have hpos : (@unpackExponent Format.binary64 b).toNat ≠ 0 := fun h => hsome (BitVec.toNat_inj.mp h)
      refine ⟨⟨?_, ?_, .inl ?_⟩, ?_⟩
      · omega
      · omega
      · omega
      · show _ ≤ _
        omega

end Binary64

end PlacementTree
