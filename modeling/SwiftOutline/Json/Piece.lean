import SwiftOutline.Json.Basic

/-!
# Pieces of JSON text

JSON text is split in one pass over its characters. A word is a longest run of letters, digits, signs
and points, so that `null` and numbers are read alike; everything else outside strings is a bracket, a
comma, a colon or blank.
-/

namespace SwiftOutline.Json

/-- A smallest part of JSON text. -/
inductive Piece where
  | openList
  | closeList
  | openObject
  | closeObject
  | comma
  | colon
  | scalar (value : Json)
deriving Inhabited

/-! ## Words -/

/-- The number that decimal digits stand for. -/
def natOfDigits (digits : List Char) : Nat :=
  digits.foldl (fun n c => 10 * n + (c.toNat - '0'.toNat)) 0

/-- The exponent at the end of a number, zero if the number ends before it. -/
def exponent? : List Char → Option Int
  | [] => some 0
  | mark :: cs =>
    let negative := cs.head? = some '-'
    let digits := if negative || cs.head? = some '+' then cs.drop 1 else cs
    if (mark = 'e' || mark = 'E') && !digits.isEmpty && digits.all Char.isDigit then
      some (if negative then -(natOfDigits digits : Int) else natOfDigits digits)
    else none

/-- A number has at most this many digits before its point; a longer one is too large for a double. -/
def wholeDigitLimit : Nat := 309

/-- The number with the digits `whole` before and `fraction` after its point, times ten to the power
`exponent`. It keeps a place after the point, so that it is not taken for the literal of an integer. -/
def decimal? (negative : Bool) (whole fraction : List Char) (exponent : Int) : Option Json :=
  let digits := (whole ++ fraction).dropWhile (· = '0')
  let places := (fraction.length : Int) - exponent
  let zeros := (1 - places).toNat
  if digits.isEmpty then some (num 0 1)
  else if digits.length - places > wholeDigitLimit then none
  else
    let mantissa : Int := natOfDigits (digits ++ List.replicate zeros '0')
    some (num (if negative then -mantissa else mantissa) (places.toNat + zeros))

/-- The number that a word stands for. Minus zero is no integer. -/
def number? (word : List Char) : Option Json :=
  let negative := word.head? = some '-'
  let unsigned := if negative then word.drop 1 else word
  let whole := unsigned.takeWhile Char.isDigit
  let rest := unsigned.dropWhile Char.isDigit
  if whole.isEmpty || (whole.head? = some '0' && 1 < whole.length) then none
  else
    match rest with
    | [] =>
      if negative && whole = ['0'] then some (num 0 1)
      else some (num (if negative then -(natOfDigits whole : Int) else natOfDigits whole) 0)
    | '.' :: cs =>
      let fraction := cs.takeWhile Char.isDigit
      if fraction.isEmpty then none
      else (exponent? (cs.dropWhile Char.isDigit)).bind (decimal? negative whole fraction)
    | cs => (exponent? cs).bind (decimal? negative whole [])

/-- The value that a word stands for. -/
def word? (word : List Char) : Option Json :=
  if word = "null".toList then some null
  else if word = "true".toList then some (bool true)
  else if word = "false".toList then some (bool false)
  else number? word

/-! ## Strings -/

/-- The character that a letter after a backslash stands for. -/
def unescape? : Char → Option Char
  | '\"' => some '\"'
  | '\\' => some '\\'
  | '/' => some '/'
  | 'b' => some '\x08'
  | 'f' => some '\x0c'
  | 'n' => some '\n'
  | 'r' => some '\r'
  | 't' => some '\t'
  | _ => none

def hexDigit? (c : Char) : Option Nat :=
  if c.isDigit then some (c.toNat - '0'.toNat)
  else if 'a' ≤ c && c ≤ 'f' then some (c.toNat - 'a'.toNat + 10)
  else if 'A' ≤ c && c ≤ 'F' then some (c.toNat - 'A'.toNat + 10)
  else none

def isHighSurrogate (n : Nat) : Bool := 0xd800 ≤ n && n < 0xdc00

def isLowSurrogate (n : Nat) : Bool := 0xdc00 ≤ n && n < 0xe000

/-- The characters of a string whose code points above U+FFFF may stand as two surrogates. A
surrogate without its other half is refused. -/
def charsOfUnits? : List Nat → Option (List Char)
  | [] => some []
  | [n] => if isHighSurrogate n || isLowSurrogate n then none else some [Char.ofNat n]
  | n :: m :: units =>
    if isHighSurrogate n then
      if isLowSurrogate m then
        (charsOfUnits? units).map
          (Char.ofNat (0x10000 + 0x400 * (n - 0xd800) + (m - 0xdc00)) :: ·)
      else none
    else if isLowSurrogate n then none
    else (charsOfUnits? (m :: units)).map (Char.ofNat n :: ·)

/-! ## Splitting -/

/-- Where a split stands. -/
inductive SplitMode where
  /-- Outside strings, after the letters of a word, the last letter first. -/
  | word (letters : List Char)
  /-- In a string, after these code units, the last first. -/
  | text (units : List Nat)
  /-- In a string, after a backslash. -/
  | escape (units : List Nat)
  /-- In a string, with this many digits of an escape to come and the value of those before. -/
  | digits (units : List Nat) (missing value : Nat)

/-- The pieces before a character, the last first, and where the split stands. -/
structure SplitState where
  pieces : List Piece := []
  mode : SplitMode := .word []

namespace SplitState

def isWordPart (c : Char) : Bool := c.isAlphanum || c == '-' || c == '+' || c == '.'

/-- The pieces with the word that ends here. -/
def endWord? (pieces : List Piece) (letters : List Char) : Option (List Piece) :=
  if letters.isEmpty then some pieces
  else (word? letters.reverse).map fun value => .scalar value :: pieces

/-- The split after a character outside strings that is not part of a word. -/
def mark? (pieces : List Piece) (c : Char) : Option SplitState :=
  if c = ' ' || c = '\t' || c = '\n' || c = '\r' then some { pieces }
  else if c = '\"' then some ⟨pieces, .text []⟩
  else if c = '[' then some { pieces := .openList :: pieces }
  else if c = ']' then some { pieces := .closeList :: pieces }
  else if c = '\x7b' then some { pieces := .openObject :: pieces }
  else if c = '\x7d' then some { pieces := .closeObject :: pieces }
  else if c = ',' then some { pieces := .comma :: pieces }
  else if c = ':' then some { pieces := .colon :: pieces }
  else none

/-- The split after one more character. -/
def step (s : SplitState) (c : Char) : Option SplitState :=
  match s.mode with
  | .word letters =>
    if isWordPart c then some ⟨s.pieces, .word (c :: letters)⟩
    else (endWord? s.pieces letters).bind (mark? · c)
  | .text units =>
    if c = '\"' then
      (charsOfUnits? units.reverse).map fun chars =>
        { pieces := .scalar (str (String.ofList chars)) :: s.pieces }
    else if c = '\\' then some ⟨s.pieces, .escape units⟩
    else if c.toNat < 0x20 then none
    else some ⟨s.pieces, .text (c.toNat :: units)⟩
  | .escape units =>
    if c = 'u' then some ⟨s.pieces, .digits units 4 0⟩
    else (unescape? c).map fun e => ⟨s.pieces, .text (e.toNat :: units)⟩
  | .digits units missing value =>
    (hexDigit? c).map fun d =>
      if missing ≤ 1 then ⟨s.pieces, .text ((16 * value + d) :: units)⟩
      else ⟨s.pieces, .digits units (missing - 1) (16 * value + d)⟩

/-- The pieces of a text that ends here; a string must be closed. -/
def finish? (s : SplitState) : Option (List Piece) :=
  match s.mode with
  | .word letters => (endWord? s.pieces letters).map List.reverse
  | _ => none

end SplitState

/-- The pieces of a text, in order. -/
def pieces? (text : String) : Option (List Piece) :=
  (text.toList.foldlM SplitState.step {}).bind SplitState.finish?

end SwiftOutline.Json
