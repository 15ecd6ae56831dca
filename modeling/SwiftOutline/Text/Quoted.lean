import SwiftOutline.Text.Printable

/-!
# Quoted text

How source text is shown inside an error message: between quotes, with everything that could not be
told apart on screen written as an escape.
-/

namespace SwiftOutline.Text

/-- The escape that names a character by its code point in hexadecimal. -/
def codePointEscape (c : Char) : String :=
  "\\u\x7b" ++ String.ofList (Nat.toDigits 16 c.toNat) ++ "\x7d"

/-- A character as it stands between two `quote` characters. -/
def escaped (quote c : Char) : String :=
  if c = '\x00' then "\\0"
  else if c = '\t' then "\\t"
  else if c = '\r' then "\\r"
  else if c = '\n' then "\\n"
  else if c = '\\' then "\\\\"
  else if c = quote then String.ofList ['\\', quote]
  else if isExtending c then codePointEscape c
  else if isPrintable c then String.singleton c
  else codePointEscape c

/-- Text between double quotes. -/
def quoted (s : String) : String :=
  "\"" ++ String.join (s.toList.map (escaped '\"')) ++ "\""

/-- A character between single quotes. -/
def quotedChar (c : Char) : String := "'" ++ escaped '\'' c ++ "'"

end SwiftOutline.Text
