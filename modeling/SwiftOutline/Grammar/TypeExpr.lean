import SwiftOutline.Grammar.Run

/-!
# Type expressions

The grammar of types, from the loosest binding to the tightest: compositions `A & B`; types with
attributes or specifiers in front, `some` and `any` types, and suppressed types `~T`; postfix forms
`T?`, `T!`, `T.Type`, `A.B`; and names, collections and parentheses.

A type that stands inside another is read by the rule `inner`, one level deeper. `Rule.type n` allows
`n` levels in all.
-/

namespace SwiftOutline

variable {F : Type} [Append F] [Yield F]

/-- Words that may stand in front of a type. -/
def typeSpecifiers : List String :=
  ["inout", "borrowing", "consuming", "__owned", "__shared", "isolated", "sending", "repeat", "each"]

/-- The next token is a type specifier with a type after it. -/
def seesTypeSpecifier : Lookahead := fun ts =>
  typeSpecifiers.contains (textAt 0 ts) && seesWord ts &&
    (isWordAt 1 ts || ["(", "[", "@"].contains (textAt 1 ts))

/-- The next tokens are `some` or `any` with a type after it. -/
def seesSomeOrAny : Lookahead := fun ts =>
  (sees "some" ts || sees "any" ts) && (isWordAt 1 ts || textAt 1 ts == "(")

/-! ## Attributes -/

namespace Rule

/-- Reads an attribute: `@`, a name that may have dots in it, and arguments. -/
def declAttribute : Rule F :=
  node .declAttribute <|
    bump ++ expectWord "attribute name" ++
      many (fun ts => seesAdjacent "." ts && isWordAt 1 ts) (bumps 2) ++
      optional (seesAdjacent "(") (node .attributeArguments group)

/-- Reads a list of attributes. -/
def attributeList : Rule F := node .attributeList (many (seesKind .atSign) declAttribute)

end Rule

/-! ## Effects -/

/-- The next token is an effect. -/
def seesEffect : Lookahead := fun ts =>
  ["async", "reasync", "throws", "rethrows"].contains (textAt 0 ts) && seesWord ts

/-- The next token is an effect that may name an error type. -/
def seesThrows : Lookahead := fun ts => sees "throws" ts || sees "rethrows" ts

/-- The tokens after the effects ahead; `none` if the group of an error type is never closed. -/
def afterEffects? (ts : List Token) : Option (List Token) :=
  match ts with
  | [] => some []
  | t :: rest =>
    if t.text == "async" || t.text == "reasync" then afterEffects? rest
    else if t.text == "throws" || t.text == "rethrows" then
      if seesAdjacent "(" rest then
        match _h : takeGroup 0 rest with
        | some p => afterEffects? p.2
        | none => none
      else afterEffects? rest
    else some (t :: rest)
termination_by ts.length
decreasing_by
  · simp
  · have := length_lt_of_takeGroup _h
    simp only [List.length_cons]
    omega
  · simp

/-- An arrow follows, perhaps after effects. -/
def seesFunctionArrow : Lookahead := fun ts => (afterEffects? ts).any (seesKind .arrow)

namespace Rule

/-- Reads an effect, with the error type that may stand directly after `throws`. -/
def effect : Rule F := either seesThrows (bump ++ optional (seesAdjacent "(") group) bump

/-- Reads effects in any order. -/
def effectSpecifiers : Rule F := node .effectSpecifiers (many seesEffect effect)

/-! ## Types -/

/-- Reads an initializer, `=` and an expression. -/
def initializerClause : Rule F := node .initializerClause (bump ++ expr)

/-- Reads the generic arguments between `<` and `>`. -/
def genericArgumentClause (inner : Rule F) : Rule F :=
  node .genericArgumentClause <|
    bump ++
      many (fun ts => !sees ">" ts)
        (require (fun ts => !seesEnd ts) "'>'" <|
          node .genericArgument <|
            inner ++ either (sees ",") bump (require (sees ">") "',' or '>'" nothing)) ++
      bump

/-- Reads the labels in front of an element's type. -/
def elementLabels : Rule F :=
  either (fun ts => seesWord ts && textAt 1 ts == ":") (bumps 2) <|
    optional (fun ts => seesWord ts && isWordAt 1 ts && textAt 2 ts == ":") (bumps 3)

/-- Reads what may follow the type of an element or a parameter: an ellipsis, a default value, and a
comma unless the list ends here. -/
def elementRest : Rule F :=
  optional (seesKind .ellipsis) bump ++ optional (sees "=") initializerClause ++
    either (sees ",") bump (require (sees ")") "',' or ')'" nothing)

/-- Reads an element of a tuple, or an associated value of an enumeration case. -/
def tupleElement (inner : Rule F) (kind : NodeKind) : Rule F :=
  node kind (elementLabels ++ inner ++ elementRest)

/-- Reads elements up to a closing parenthesis. -/
def elements (element : Rule F) : Rule F :=
  many (fun ts => !sees ")" ts) (require (fun ts => !seesEnd ts) "')'" element)

/-- Reads a parenthesized list, which is a function type if an arrow follows it. -/
def parenType (inner : Rule F) : Rule F :=
  closing .tupleType (bump ++ node .tupleTypeElementList (elements (tupleElement inner .tupleTypeElement)) ++
      bump) fun ts =>
    if seesFunctionArrow ts then
      (.functionType, optional seesEffect effectSpecifiers ++ bump ++ inner)
    else (.tupleType, nothing)

/-- Reads an array or dictionary type. -/
def collectionType (inner : Rule F) : Rule F :=
  closing .arrayType (bump ++ inner) fun ts =>
    if sees ":" ts then (.dictionaryType, bump ++ inner ++ expect "]")
    else (.arrayType, expect "]")

/-- Reads a type name with its generic arguments. -/
def identifierType (inner : Rule F) : Rule F :=
  node .identifierType (bump ++ optional (sees "<") (genericArgumentClause inner))

/-- Reads a type without anything in front of it or after it. -/
def primaryType (inner : Rule F) : Rule F :=
  either (sees "(") (parenType inner) <|
    either (sees "[") (collectionType inner) <|
      require seesWord "type" (identifierType inner)

/-- The node and the rule for the postfix form ahead, if there is one. -/
def postfixForm (inner : Rule F) (ts : List Token) : Option (NodeKind × Rule F) :=
  if sees "?" ts then some (.optionalType, bump)
  else if sees "!" ts then some (.implicitlyUnwrappedOptionalType, bump)
  else if sees "." ts && isWordAt 1 ts then
    if ["Type", "Protocol"].contains (textAt 1 ts) then some (.metatypeType, bumps 2)
    else some (.memberType, bumps 2 ++ optional (sees "<") (genericArgumentClause inner))
  else none

/-- Reads a type with its postfix forms. -/
def postfixType (inner : Rule F) : Rule F := wrapping (primaryType inner) (postfixForm inner)

/-- Reads a type that is no composition. -/
def simpleType (inner : Rule F) : Rule F :=
  either (fun ts => seesKind .atSign ts || seesTypeSpecifier ts)
    (node .attributedType <|
      many seesTypeSpecifier bump ++ optional (seesKind .atSign) attributeList ++
        postfixType inner) <|
  either seesSomeOrAny (node .someOrAnyType (bump ++ postfixType inner)) <|
  either (sees "~") (node .suppressedType (bump ++ postfixType inner)) <|
  postfixType inner

/-- The rule for the other operands of a composition, if one is ahead. -/
def compositionForm (inner : Rule F) (ts : List Token) : Option (NodeKind × Rule F) :=
  if sees "&" ts then some (.compositionType, many (sees "&") (bump ++ simpleType inner)) else none

/-- Reads a type whose inner types are read by `inner`. -/
def typeBody (inner : Rule F) : Rule F := wrapping (simpleType inner) (compositionForm inner)

/-- Reads a type that is nested at most `n` levels deep. -/
def type : Nat → Rule F
  | 0 => tooDeep
  | n + 1 => typeBody (type n)

end Rule

end SwiftOutline
