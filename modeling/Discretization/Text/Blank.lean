import Discretization.Text.CharRange

/-!
# Blank Characters

The characters that count as blank at the ends of a setting, and the trimming of them.
-/

namespace Discretization.Text

/-- Spaces and separators, in Unicode's sense, with the control characters that end lines or
records. -/
def blankRanges : CharRanges :=
  [(0x9, 0xD), (0x1C, 0x20), (0x85, 0x85), (0xA0, 0xA0), (0x1680, 0x1680), (0x2000, 0x200A),
   (0x2028, 0x2029), (0x202F, 0x202F), (0x205F, 0x205F), (0x3000, 0x3000)]

/-- Whether a character is blank. -/
def isBlank (c : Char) : Bool :=
  blankRanges.has c

/-- The characters without the blank ones at both ends. -/
def trimBlanks (cs : List Char) : List Char :=
  ((cs.dropWhile isBlank).reverse.dropWhile isBlank).reverse

/-- The text without blank characters at both ends. -/
def trim (s : String) : String :=
  String.ofList (trimBlanks s.toList)

end Discretization.Text
