/-!
# Blank text

White space as Unicode lists it: the characters of its property `White_Space`.
-/

namespace PlacementTree.Text

/-- The ranges of white space, first and last code point. -/
def whiteSpaceRanges : List (Nat × Nat) :=
  [(0x9, 0xd), (0x20, 0x20), (0x85, 0x85), (0xa0, 0xa0), (0x1680, 0x1680), (0x2000, 0x200a), (0x2028, 0x2029), (0x202f, 0x202f),
    (0x205f, 0x205f), (0x3000, 0x3000)]

def isWhiteSpace (c : Char) : Bool := whiteSpaceRanges.any fun range => decide (range.1 ≤ c.toNat ∧ c.toNat ≤ range.2)

/-- Whether a text is nothing but white space. -/
def isBlank (text : String) : Bool := text.toList.all isWhiteSpace

end PlacementTree.Text
