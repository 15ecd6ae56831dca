import SwiftOutline.Descriptor.Basic
import SwiftOutline.Text.Blank

/-!
# Void

A type that says "nothing" has several spellings, and a list of descriptors that holds only such a
type is as good as empty.
-/

namespace SwiftOutline

/-- The spellings of the void type, optional or in one pair of parentheses. -/
def voidSpellings : List String :=
  ["Void", "(Void)", "Void?", "(Void?)", "()", "(())", "()?", "(()?)"]

/-- The text is a spelling of the void type, white space aside. -/
def isVoidSpelling (text : String) : Bool := voidSpellings.contains (Text.strip text)

/-- The list is empty or holds one descriptor, whose type is void attributes aside. -/
def isVoidList : List Descriptor → Bool
  | [] => true
  | [d] => isVoidSpelling d.fields.bareType
  | _ => false

end SwiftOutline
