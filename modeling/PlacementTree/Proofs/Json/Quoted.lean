import Mathlib.Tactic.IntervalCases
import PlacementTree.Json.Reader
import PlacementTree.Json.Writer

/-!
# Strings in JSON are read as they were written

A written string is its characters one by one, each as itself or as an escape. The reader takes the text apart into pieces, one for each
character (`readPieces_flatMap_escape`), and joins the pieces to characters (`joinPieces_map_piece`): only control characters are written by
their number, so no piece is half of a surrogate pair.
-/

namespace PlacementTree

/-- Two zeros and the two digits of a number below 32 stand for the number. -/
theorem Text.ofHex?_control {n : Nat} (h : n < 0x20) : Text.ofHex? ['0', '0', hexDigit (n / 16), hexDigit (n % 16)] = some n := by
  interval_cases n <;> decide

namespace Json

/-- The characters that are written by their number: the control characters without a short escape. -/
def numbered (c : Char) : Bool := decide (c.toNat < 0x20) && !List.contains ['\x08', '\x0c', '\n', '\r', '\t'] c

/-- The piece that a written character is read as. -/
def piece (c : Char) : Piece := if numbered c then .unit c.toNat else .char c

/-! ## Pieces -/

theorem readPieces_quote (rest : List Char) : readPieces ('"' :: rest) = some ([], rest) := by rw [readPieces]

theorem readPieces_number {n : Nat} (h : n < 0x20) (rest : List Char) :
    readPieces ('\\' :: 'u' :: '0' :: '0' :: Text.hexDigit (n / 16) :: Text.hexDigit (n % 16) :: rest) =
      (readPieces rest).map fun (pieces, rest) => (.unit n :: pieces, rest) := by
  rw [readPieces, Text.ofHex?_control h]
  cases readPieces rest <;> rfl

theorem readPieces_short {e c : Char} (h : escaped? e = some c) (rest : List Char) :
    readPieces ('\\' :: e :: rest) = (readPieces rest).map fun (pieces, rest) => (.char c :: pieces, rest) := by
  have hu : e ≠ 'u' := by
    rintro rfl
    cases h
  rw [readPieces.eq_4 e rest (by simp [hu]), h]
  cases readPieces rest <;> rfl

theorem readPieces_plain {c : Char} (hquote : c ≠ '"') (hslash : c ≠ '\\') (hcontrol : ¬ c.toNat < 0x20) (rest : List Char) :
    readPieces (c :: rest) = (readPieces rest).map fun (pieces, rest) => (.char c :: pieces, rest) := by
  rw [readPieces.eq_5 c rest (by simp [hquote]) (by simp [hslash]) (by simp [hslash]), if_neg hcontrol]

/-- A written character in front of a text puts its piece in front. -/
theorem readPieces_escape (c : Char) (cs : List Char) :
    readPieces (escape c ++ cs) = (readPieces cs).map fun (pieces, rest) => (piece c :: pieces, rest) := by
  unfold escape
  split
  case h_8 hquote hslash h8 hc hn hr ht =>
    split
    · rename_i hcontrol
      have hpiece : piece c = .unit c.toNat := by
        simp [piece, numbered, hcontrol]
        exact ⟨h8, hc, hn, hr, ht⟩
      rw [hpiece]
      exact readPieces_number hcontrol cs
    · rename_i hcontrol
      have hpiece : piece c = .char c := by simp [piece, numbered, hcontrol]
      rw [hpiece]
      exact readPieces_plain hquote hslash hcontrol cs
  all_goals exact readPieces_short rfl cs

theorem readPieces_flatMap_escape (cs rest : List Char) :
    readPieces (cs.flatMap escape ++ '"' :: rest) = some (cs.map piece, rest) := by
  induction cs with
  | nil => exact readPieces_quote rest
  | cons c cs ih => rw [List.flatMap_cons, List.append_assoc, readPieces_escape, ih, Option.map_some, List.map_cons]

/-! ## Joining them -/

/-- A control character is no half of a surrogate pair. -/
theorem not_isLeading_of_control {n : Nat} (h : n < 0x20) : isLeading n = false ∧ isTrailing n = false := by
  constructor <;> simp [isLeading, isTrailing] <;> omega

theorem joinPieces_unit {n : Nat} (h : n < 0x20) (pieces : List Piece) :
    joinPieces (.unit n :: pieces) = (joinPieces pieces).map (Char.ofNat n :: ·) := by
  obtain ⟨hleading, htrailing⟩ := not_isLeading_of_control h
  match pieces with
  | [] => simp [joinPieces, hleading, htrailing]
  | .unit m :: rest => simp [joinPieces, hleading, htrailing]
  | .char c :: rest =>
    simp [joinPieces, hleading, htrailing]
    rfl

theorem joinPieces_piece (c : Char) (pieces : List Piece) :
    joinPieces (piece c :: pieces) = (joinPieces pieces).map (c :: ·) := by
  unfold piece
  split
  · rename_i hnumbered
    have hcontrol : c.toNat < 0x20 := by
      simp only [numbered, Bool.and_eq_true, decide_eq_true_eq] at hnumbered
      exact hnumbered.1
    rw [joinPieces_unit hcontrol, Char.ofNat_toNat]
  · rw [joinPieces]

theorem joinPieces_map_piece (cs : List Char) : joinPieces (cs.map piece) = some cs := by
  induction cs with
  | nil => rw [List.map_nil, joinPieces]
  | cons c cs ih => rw [List.map_cons, joinPieces_piece, ih, Option.map_some]

/-! ## Strings -/

/-- The text of a string after its opening quote. -/
theorem toList_quote (text : String) : (quote text).toList = '"' :: (text.toList.flatMap escape ++ ['"']) := by
  rw [quote, String.toList_ofList]

/-- A string is read as it was written. -/
theorem readString_quote (text : String) (rest : List Char) :
    readString (text.toList.flatMap escape ++ '"' :: rest) = some (some text, rest) := by
  simp [readString, readPieces_flatMap_escape, joinPieces_map_piece]

end Json

end PlacementTree
