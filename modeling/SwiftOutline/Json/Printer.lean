import SwiftOutline.Json.Basic

/-!
# JSON text

The two written forms of a value: on one line without spaces, and over several lines indented by two
spaces a level. Characters outside ASCII stand as they are.
-/

namespace SwiftOutline.Json

/-- The hexadecimal digits of a control character, four of them. -/
def controlEscape (c : Char) : String :=
  let digits := Nat.toDigits 16 c.toNat
  "\\u" ++ String.ofList (List.replicate (4 - digits.length) '0' ++ digits)

/-- A character as it stands in a string: quotes, backslashes and controls below U+0020 are escaped. -/
def escaped (c : Char) : String :=
  if c = '\"' then "\\\""
  else if c = '\\' then "\\\\"
  else if c = '\x08' then "\\b"
  else if c = '\t' then "\\t"
  else if c = '\n' then "\\n"
  else if c = '\x0c' then "\\f"
  else if c = '\r' then "\\r"
  else if c.toNat < 0x20 then controlEscape c
  else String.singleton c

def quoted (s : String) : String := "\"" ++ String.join (s.toList.map escaped) ++ "\""

/-- A number in positional notation. -/
def number (mantissa : Int) (places : Nat) : String :=
  if places = 0 then toString mantissa
  else
    let digits := (toString mantissa.natAbs).toList
    let padded := List.replicate (places + 1 - digits.length) '0' ++ digits
    let whole := padded.length - places
    (if mantissa < 0 then "-" else "") ++ String.ofList (padded.take whole) ++ "." ++
      String.ofList (padded.drop whole)

mutual

/-- The value on one line, without spaces. -/
def compact : Json → String
  | null => "null"
  | bool b => if b then "true" else "false"
  | num m places => number m places
  | str s => quoted s
  | arr items => "[" ++ compactItems items ++ "]"
  | obj fields => "\x7b" ++ compactFields fields ++ "\x7d"

def compactItems : List Json → String
  | [] => ""
  | [j] => compact j
  | j :: js => compact j ++ "," ++ compactItems js

def compactFields : List (String × Json) → String
  | [] => ""
  | [(name, j)] => quoted name ++ ":" ++ compact j
  | (name, j) :: fields => quoted name ++ ":" ++ compact j ++ "," ++ compactFields fields

end

/-- A line break and the indentation of a level. -/
def newLine (level : Nat) : String := "\n" ++ String.ofList (List.replicate (2 * level) ' ')

mutual

/-- The value over several lines, at a level of indentation. -/
def prettyAt (level : Nat) : Json → String
  | null => "null"
  | bool b => if b then "true" else "false"
  | num m places => number m places
  | str s => quoted s
  | arr [] => "[]"
  | arr items => "[" ++ prettyItems (level + 1) items ++ newLine level ++ "]"
  | obj [] => "\x7b\x7d"
  | obj fields => "\x7b" ++ prettyFields (level + 1) fields ++ newLine level ++ "\x7d"

def prettyItems (level : Nat) : List Json → String
  | [] => ""
  | [j] => newLine level ++ prettyAt level j
  | j :: js => newLine level ++ prettyAt level j ++ "," ++ prettyItems level js

def prettyFields (level : Nat) : List (String × Json) → String
  | [] => ""
  | [(name, j)] => newLine level ++ quoted name ++ ": " ++ prettyAt level j
  | (name, j) :: fields =>
    newLine level ++ quoted name ++ ": " ++ prettyAt level j ++ "," ++ prettyFields level fields

end

/-- The value over several lines. -/
def pretty (j : Json) : String := prettyAt 0 j

end SwiftOutline.Json
