import Mathlib.Tactic.SplitIfs
import PlacementTree.Labels

/-!
# The order of names is that of their bytes

Names are compared by their code points. Elsewhere they are compared as what they are stored as, by the bytes of UTF-8, and that is the
same order (`name_lt_iff_nameBytes_lt`): of two characters the one of the smaller code point has the smaller byte where their bytes first differ
(`utf8_append_lt`), whatever follows.
-/

namespace PlacementTree

variable {c d : Char} {cs ds : List Char} {a b : String}

/-- A byte that continues a character holds six places. -/
theorem toNat_continuation (n : Nat) : (UInt8.ofNat (n % 64 + 128)).toNat = n % 64 + 128 := by
  rw [UInt8.toNat_ofNat']
  omega

/-- The first byte of a character holds its length and as many places as there is room for. -/
theorem toNat_leading {n bound length : Nat} (hn : n < bound) (hbound : bound + length ≤ 256) :
    (UInt8.ofNat (n % bound + length)).toNat = n + length := by
  rw [UInt8.toNat_ofNat', Nat.mod_eq_of_lt hn]
  exact Nat.mod_eq_of_lt (by omega)

theorem toNat_single {n : Nat} (hn : n ≤ 0x7f) : (UInt8.ofNat n).toNat = n := by
  rw [UInt8.toNat_ofNat']
  exact Nat.mod_eq_of_lt (by omega)

/-- The characters decide before what follows them does. A longer encoding starts with a larger byte, and encodings of one length hold the
places of the code point, the highest first. -/
theorem utf8_append_lt (h : c < d) (xs ys : List UInt8) : String.utf8EncodeChar c ++ xs < String.utf8EncodeChar d ++ ys := by
  have hlt : c.val.toNat < d.val.toNat := h
  have hrange : d.val.toNat < 0x110000 := by
    have := d.valid
    unfold UInt32.isValidChar Nat.isValidChar at this
    omega
  unfold String.utf8EncodeChar
  dsimp only
  split_ifs <;> try omega
  all_goals
    simp (disch := omega) only [List.cons_append, List.nil_append, List.cons_lt_cons_iff, UInt8.lt_iff_toNat_lt, ← UInt8.toNat_inj,
      toNat_continuation, toNat_leading, toNat_single]
    omega

/-- The bytes of a text begin with those of its first character. -/
theorem utf8_flatMap_lt (h : cs < ds) : cs.flatMap String.utf8EncodeChar < ds.flatMap String.utf8EncodeChar := by
  induction cs generalizing ds with
  | nil =>
    cases ds with
    | nil => exact absurd h (List.lt_irrefl [])
    | cons d ds =>
      obtain ⟨x, xs, hd⟩ := List.exists_cons_of_ne_nil (String.utf8EncodeChar_ne_nil (c := d))
      rw [List.flatMap_cons, hd]
      exact List.nil_lt_cons _ _
  | cons c cs ih =>
    cases ds with
    | nil => exact absurd h (List.not_lt_nil _)
    | cons d ds =>
      rw [List.flatMap_cons, List.flatMap_cons]
      rcases List.cons_lt_cons_iff.mp h with hlt | ⟨rfl, hrest⟩
      · exact utf8_append_lt hlt _ _
      · exact List.append_left_lt (ih hrest)

/-- The bytes that a name is stored as. -/
def nameBytes (name : String) : List UInt8 := name.toUTF8.data.toList

theorem nameBytes_eq_flatMap (name : String) : nameBytes name = name.toList.flatMap String.utf8EncodeChar := by
  rw [nameBytes, String.toUTF8_eq_toByteArray, ← String.utf8Encode_toList]
  exact List.toList_data_toByteArray

theorem nameBytes_lt_of_lt (h : a < b) : nameBytes a < nameBytes b := by
  rw [nameBytes_eq_flatMap, nameBytes_eq_flatMap]
  exact utf8_flatMap_lt h

/-- Names are in the order of their bytes. -/
theorem name_lt_iff_nameBytes_lt : a < b ↔ nameBytes a < nameBytes b := by
  constructor
  · exact nameBytes_lt_of_lt
  · intro h
    by_cases hlt : a < b
    · exact hlt
    · by_cases heq : a = b
      · rw [heq] at h
        exact absurd h (List.lt_irrefl _)
      · exact absurd (nameBytes_lt_of_lt (name_lt_of_not_lt_of_ne hlt heq)) (List.lt_asymm h)

end PlacementTree
