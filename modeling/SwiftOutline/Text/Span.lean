/-!
# Byte spans

Offsets into source text count the bytes of its UTF-8 form. A span is a pair of such offsets.
-/

namespace SwiftOutline

namespace Text

/-- The number of bytes that the characters take in UTF-8. -/
def byteSize : List Char → Nat
  | [] => 0
  | c :: cs => c.utf8Size + byteSize cs

@[simp] theorem byteSize_nil : byteSize [] = 0 := rfl

@[simp] theorem byteSize_cons (c : Char) (cs : List Char) :
    byteSize (c :: cs) = c.utf8Size + byteSize cs := rfl

@[simp] theorem byteSize_append (a b : List Char) :
    byteSize (a ++ b) = byteSize a + byteSize b := by
  induction a with
  | nil => simp
  | cons c cs ih => simp [ih, Nat.add_assoc]

/-- The characters after the first `n` bytes; `none` if byte `n` is inside a character or past the
end. -/
def dropBytes? : List Char → Nat → Option (List Char)
  | cs, 0 => some cs
  | [], _ + 1 => none
  | c :: cs, n + 1 => if c.utf8Size ≤ n + 1 then dropBytes? cs (n + 1 - c.utf8Size) else none

/-- The characters of the first `n` bytes; `none` if byte `n` is inside a character or past the
end. -/
def takeBytes? : List Char → Nat → Option (List Char)
  | _, 0 => some []
  | [], _ + 1 => none
  | c :: cs, n + 1 =>
    if c.utf8Size ≤ n + 1 then (takeBytes? cs (n + 1 - c.utf8Size)).map (c :: ·) else none

end Text

/-- A range of bytes, from `start` up to `stop`. A span read back from a record may have its two ends
in either order. -/
structure Span where
  start : Nat
  stop : Nat
deriving DecidableEq, Repr, Inhabited

namespace Span

/-- The empty span at offset 0, which stands for a node without tokens. -/
def empty : Span := ⟨0, 0⟩

/-- The span between two offsets; an end that precedes the start is moved up to it. -/
def ofBounds (start stop : Nat) : Span := ⟨start, max stop start⟩

/-- The number of bytes in the span. -/
def length (s : Span) : Nat := s.stop - s.start

def isEmpty (s : Span) : Bool := s.start == s.stop

/-- The smallest span that holds both. -/
def cover (a b : Span) : Span := ofBounds (min a.start b.start) (max a.stop b.stop)

end Span

namespace Text

/-- The characters in a span; `none` if an end lies inside a character or past the end of the
text, or if the ends are in the wrong order. -/
def slice? (cs : List Char) (s : Span) : Option (List Char) :=
  if s.start ≤ s.stop then (dropBytes? cs s.start).bind (takeBytes? · (s.stop - s.start)) else none

end Text

end SwiftOutline
