import SwiftOutline.Tree.Place

/-!
# Labels

The names, the ellipsis and the default value of a parameter stand beside its type, in the element
that carries the type.
-/

namespace SwiftOutline

/-- What an element says beside its type. Names that are missing are empty. -/
structure Labels where
  name : String := ""
  secondName : String := ""
  variadic : Bool := false
  defaultArgument : Option String := none
deriving DecidableEq, Repr, Inhabited

/-- The expression of a direct initializer. -/
def Tree.initializer? (t : Tree) : Option String :=
  ((t.child? .initializerClause).bind (·.child? .expr)).map Tree.text

/-- The names of an element: the words before its colon, if it has one. -/
def Tree.elementNames (t : Tree) : List String :=
  if t.hasToken ":" then
    ((t.childTokens.takeWhile (·.text != ":")).filter Token.isWord).map Token.text
  else []

/-- What an element says beside its type. -/
def Tree.elementLabels (t : Tree) : Labels where
  name := t.elementNames[0]?.getD ""
  secondName := t.elementNames[1]?.getD ""
  variadic := t.hasToken "..."
  defaultArgument := t.initializer?

/-- The kinds of node that carry a type together with labels. -/
def NodeKind.isCarrier : NodeKind → Bool
  | functionParameter | tupleTypeElement | enumCaseParameter | typeRoot => true
  | _ => false

namespace Place

/-- The element that carries a type: the node above it, past at most one optional. -/
def carrier? (p : Place) : Option Place := do
  let parent ← p.parent?
  let carrier ← if parent.kind?.any NodeKind.isOptional then parent.parent? else some parent
  if carrier.kind?.any NodeKind.isCarrier then some carrier else none

/-- The labels of the element that carries a type; a type without such an element has none. -/
def labels (p : Place) : Labels := (p.carrier?.map (·.tree.elementLabels)).getD {}

end Place

end SwiftOutline
