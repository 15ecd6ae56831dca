/-!
# Blank characters

What counts as white space in source text, and the two ways text is rid of it.
-/

namespace SwiftOutline.Text

/-- A character with the Unicode `White_Space` property. Separators such as U+001C, the zero width
space U+200B and the byte order mark U+FEFF do not have it. -/
def isBlank (c : Char) : Bool :=
  let n := c.toNat
  (0x09 ≤ n && n ≤ 0x0d) || n == 0x20 || n == 0x85 || n == 0xa0 || n == 0x1680 ||
    (0x2000 ≤ n && n ≤ 0x200a) || n == 0x2028 || n == 0x2029 || n == 0x202f || n == 0x205f ||
    n == 0x3000

/-- The text with every blank character taken out. -/
def strip (s : String) : String := String.ofList (s.toList.filter fun c => !isBlank c)

/-- The text without the blank characters at its start and at its end. -/
def trim (s : String) : String :=
  String.ofList (((s.toList.dropWhile isBlank).reverse.dropWhile isBlank).reverse)

end SwiftOutline.Text
