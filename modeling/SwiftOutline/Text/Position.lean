import SwiftOutline.Text.Span

/-!
# Positions in source text

Lines and columns count from one, offsets from zero. A column counts characters, not bytes. Lines and
columns have 32 bits and start over where these do not suffice.
-/

namespace SwiftOutline

namespace Text

/-- The number of the line or column that comes after `n` others, in 32 bits. -/
def ordinal (n : Nat) : Nat := (n + 1) % UInt32.size

/-- Line and column reached from `line` and `column` after the characters that start before byte
`offset`. -/
def advance : List Char → Nat → Nat → Nat → Nat × Nat
  | [], _, line, column => (line, column)
  | c :: cs, offset, line, column =>
    if offset = 0 then (line, column)
    else if c = '\n' then advance cs (offset - c.utf8Size) (ordinal line) 1
    else advance cs (offset - c.utf8Size) line (ordinal column)

/-- Line and column of a byte offset. An offset past the end is the end of the text. -/
def positionAt (source : String) (offset : Nat) : Nat × Nat :=
  advance source.toList offset 1 1

/-- The offsets just after each line break of the characters, which start at offset `start`. -/
def breaksFrom (start : Nat) : List Char → List Nat
  | [] => []
  | c :: cs =>
    if c = '\n' then (start + c.utf8Size) :: breaksFrom (start + c.utf8Size) cs
    else breaksFrom (start + c.utf8Size) cs

end Text

/-- A position in a source file. Line and column are missing where no source was at hand. -/
structure Location where
  line : Option Nat
  column : Option Nat
  offset : Nat
deriving DecidableEq, Repr, Inhabited

namespace Location

/-- The position of everything when there is no source. -/
def empty : Location := ⟨none, none, 0⟩

def isEmpty (l : Location) : Bool := l.line.isNone && l.column.isNone

end Location

/-- Source text with the offset at which each of its lines starts. -/
structure LineIndex where
  source : List Char
  starts : List Nat

namespace LineIndex

def ofSource (source : String) : LineIndex :=
  ⟨source.toList, 0 :: Text.breaksFrom 0 source.toList⟩

/-- The number of lines. A line break at the very end opens no further line. -/
def lineCount (index : LineIndex) : Nat :=
  match index.source.getLast? with
  | none => 0
  | some c => if c = '\n' then index.starts.length - 1 else index.starts.length

/-- The position of a byte offset; an offset past the end is moved to the end. Inside a character
the column counts the bytes since the line's start. -/
def location (index : LineIndex) (offset : Nat) : Location :=
  let offset := min offset (Text.byteSize index.source)
  let before := index.starts.filter (· ≤ offset)
  let lineStart := before.getLast?.getD 0
  let column :=
    match Text.slice? index.source ⟨lineStart, offset⟩ with
    | some cs => cs.length
    | none => offset - lineStart
  ⟨some (Text.ordinal (before.length - 1)), some (Text.ordinal column), offset⟩

end LineIndex

end SwiftOutline
