import Treewalk.Text.Range

/-! # White space

    White space is the property of that name together with the four information
    separators below the space. -/

namespace Treewalk.Text

/-- The code points that count as white space. -/
def whiteRanges : List CodeRange :=
  [(0x09, 0x0D), (0x1C, 0x20), (0x85, 0x85), (0xA0, 0xA0), (0x1680, 0x1680), (0x2000, 0x200A),
   (0x2028, 0x2029), (0x202F, 0x202F), (0x205F, 0x205F), (0x3000, 0x3000)]

/-- The character is white space. -/
def isWhite (c : Char) : Bool := inRanges whiteRanges c.toNat

/-- Drops white space from the end of a list of characters. -/
def dropTrailing (cs : List Char) : List Char := (cs.reverse.dropWhile isWhite).reverse

/-- A text without the white space at its end. -/
def stripRight (s : String) : String := String.ofList (dropTrailing s.toList)

/-- A text without the white space at its start and end. -/
def strip (s : String) : String := String.ofList (dropTrailing (s.toList.dropWhile isWhite))

end Treewalk.Text
