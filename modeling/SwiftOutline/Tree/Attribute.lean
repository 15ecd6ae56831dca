import SwiftOutline.Text.Blank
import SwiftOutline.Tree.Basic

/-!
# Attributes
-/

namespace SwiftOutline

/-- An attribute: its name without `@`, and the text between its parentheses if it has any. -/
structure Attribute where
  name : String
  arguments : Option String
deriving DecidableEq, Repr, Inhabited

/-- The text inside one pair of parentheses, without blanks at its ends. -/
def withoutParens (text : String) : String :=
  let cs := text.toList
  if cs.head? = some '(' ∧ 2 ≤ cs.length ∧ cs.getLast? = some ')' then
    Text.trim (String.ofList (cs.drop 1).dropLast)
  else Text.trim text

namespace Tree

/-- The attribute that a node stands for. -/
def toAttribute (t : Tree) : Attribute where
  name := String.join ((t.childTokens.drop 1).map Token.text)
  arguments := (t.child? .attributeArguments).map fun a => withoutParens a.text

/-- The attributes in a node's own list of attributes. -/
def attributes (t : Tree) : List Attribute :=
  ((t.child? .attributeList).map fun l => l.childNodes.map toAttribute).getD []

end Tree

end SwiftOutline
