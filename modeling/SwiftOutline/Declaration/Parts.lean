import SwiftOutline.Declaration.Basic
import SwiftOutline.Descriptor.Labels

/-!
# Parts of declarations

What the nodes of declarations say about the parts that many of them share.
-/

namespace SwiftOutline

/-- Words that introduce an accessor. -/
def accessorNames : List String :=
  ["get", "set", "willSet", "didSet", "init", "_read", "_modify", "unsafeAddress",
   "unsafeMutableAddress"]

/-- Words that may stand between two accessors without bodies. -/
def accessorEffects : List String := ["async", "throws", "mutating", "nonmutating"]

/-- The accessors in a run of tokens, where `last` is the text of the token before and `depth` the
bracket depth. An accessor stands directly inside the block, where an item may start, and is not used
as a value. -/
def accessorsFrom (last : String) (depth : Nat) : List Token → List String
  | [] => []
  | t :: ts =>
    if ["\x7b", "(", "["].contains t.text then accessorsFrom t.text (depth + 1) ts
    else if ["\x7d", ")", "]"].contains t.text then accessorsFrom t.text (depth - 1) ts
    else
      let next := (ts.head?.map Token.text).getD ""
      let startsItem :=
        t.newlineBefore || last == "\x7b" || last == "\x7d" || accessorNames.contains last ||
          accessorEffects.contains last
      let isValue := [".", "=", "?", "["].contains next
      if depth == 1 && accessorNames.contains t.text && startsItem && !isValue then
        t.text :: accessorsFrom t.text depth ts
      else accessorsFrom t.text depth ts

namespace Tree

/-- The modifier that a node stands for. -/
def toModifier? (t : Tree) : Option Modifier :=
  match t.childTokens with
  | [] => none
  | [name, opener, detail, _] =>
    some ⟨name.text, if opener.text == "(" then some detail.text else none⟩
  | name :: _ => some ⟨name.text, none⟩

/-- The modifiers in a node's own list of modifiers. -/
def modifiers (t : Tree) : List Modifier :=
  ((t.child? .modifierList).map fun l => l.childNodes.filterMap toModifier?).getD []

/-- The keyword of a declaration, which is its first token that is in no part of it. -/
def keyword (t : Tree) : String := (t.childTokens.head?.map Token.text).getD ""

/-- The name of a declaration; that of an extension is the type that it extends. -/
def declaredName (t : Tree) : String :=
  match t.child? .name with
  | some n => n.text
  | none => if t.isKind .extensionDecl then (t.childType?.map text).getD "" else ""

/-- The generic parameter that a node stands for: its last word, and its constraint. -/
def toGenericParameter? (t : Tree) : Option GenericParameter :=
  (t.childTokens.filter Token.isWord).getLast?.map fun w =>
    ⟨w.text, t.childType?.map Tree.text⟩

/-- The generic parameters of a declaration. -/
def genericParameters (t : Tree) : List GenericParameter :=
  ((t.child? .genericParameterClause).map fun clause =>
    (clause.childNodes.filter (isKind .genericParameter)).filterMap toGenericParameter?).getD []

/-- The texts of the inherited types of a declaration. -/
def inheritedTypes (t : Tree) : List String :=
  ((t.child? .inheritanceClause).map fun clause =>
    (clause.childNodes.filterMap childType?).map text).getD []

/-- The requirements after `where`. -/
def whereText (t : Tree) : Option String :=
  (t.child? .genericWhereClause).bind fun clause =>
    match clause.tokens with
    | _ :: t :: ts => some (Token.joined (t :: ts))
    | _ => none

/-- The accessors in a block, in order. A block without accessors is the body of a getter. -/
def accessors (t : Tree) : List String := accessorsFrom "" 0 t.tokens

end Tree

end SwiftOutline
