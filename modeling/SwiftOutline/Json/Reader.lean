import SwiftOutline.Json.Piece

/-!
# Reading JSON text

A value is read from the pieces of its text. Lists and objects stand inside one another up to a fixed
number of levels; text that goes deeper is refused, whatever it holds.
-/

namespace SwiftOutline.Json

/-- Lists and objects are nested at most this deep. -/
def nestingLimit : Nat := 127

/-- The fields with one more in front. Of two fields with one name the later counts. -/
def addField (name : String) (value : Json) (fields : List (String × Json)) :
    List (String × Json) :=
  if fields.any (·.1 == name) then fields else (name, value) :: fields

mutual

/-- The value at the start of the pieces, of at most `level` levels, and the pieces after it. -/
def readValue (fuel level : Nat) (pieces : List Piece) : Option (Json × List Piece) :=
  match fuel, level, pieces with
  | _, _, .scalar value :: rest => some (value, rest)
  | _, _ + 1, .openList :: .closeList :: rest => some (arr [], rest)
  | fuel + 1, level + 1, .openList :: rest =>
    (readItems fuel level rest).map fun (items, rest) => (arr items, rest)
  | _, _ + 1, .openObject :: .closeObject :: rest => some (obj [], rest)
  | fuel + 1, level + 1, .openObject :: rest =>
    (readFields fuel level rest).map fun (fields, rest) => (obj fields, rest)
  | _, _, _ => none

/-- The items up to the end of a list, at least one, and the pieces after the list. -/
def readItems (fuel level : Nat) (pieces : List Piece) : Option (List Json × List Piece) :=
  match fuel with
  | 0 => none
  | fuel + 1 =>
    match readValue fuel level pieces with
    | some (item, .comma :: rest) =>
      (readItems fuel level rest).map fun (items, rest) => (item :: items, rest)
    | some (item, .closeList :: rest) => some ([item], rest)
    | _ => none

/-- The fields up to the end of an object, at least one, and the pieces after the object. -/
def readFields (fuel level : Nat) (pieces : List Piece) :
    Option (List (String × Json) × List Piece) :=
  match fuel, pieces with
  | fuel + 1, .scalar (str name) :: .colon :: rest =>
    match readValue fuel level rest with
    | some (value, .comma :: rest) =>
      (readFields fuel level rest).map fun (fields, rest) => (addField name value fields, rest)
    | some (value, .closeObject :: rest) => some ([(name, value)], rest)
    | _ => none
  | _, _ => none

end

/-- The value of a text. No chain of the calls above is longer than twice the number of pieces, so
that the fuel never runs out. -/
def parse? (text : String) : Option Json := do
  let pieces ← pieces? text
  let (value, rest) ← readValue (2 * pieces.length + 1) nestingLimit pieces
  if rest.isEmpty then some value else none

end SwiftOutline.Json
