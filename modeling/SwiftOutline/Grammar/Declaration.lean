import SwiftOutline.Grammar.Introducer

/-!
# Declarations and statements

The grammar of what stands in a file, a member block, a code block or a clause of conditional
compilation. Declarations get their full structure; statements stay runs of tokens.

Types inside a declaration are read by the rule `type` and items inside a block by the rule `item`.
`Rule.item n` allows `n` levels of items and types in all.
-/

namespace SwiftOutline

variable {F : Type} [Append F] [Yield F]

namespace Rule

/-! ## Clauses -/

/-- Reads a name. -/
def name : Rule F := node .name (expectWord "name")

/-- Reads the generic parameters between `<` and `>`. -/
def genericParameterClause (type : Rule F) : Rule F :=
  node .genericParameterClause <|
    bump ++
      many (fun ts => !sees ">" ts)
        (require (fun ts => !seesEnd ts) "'>'" <|
          node .genericParameter <|
            optional (fun ts => sees "each" ts && isWordAt 1 ts) bump ++
              expectWord "generic parameter name" ++ optional (sees ":") (bump ++ type) ++
              either (sees ",") bump (require (sees ">") "',' or '>'" nothing)) ++
      bump

/-- Reads the types after the colon of a declaration. -/
def inheritanceClause (type : Rule F) : Rule F :=
  node .inheritanceClause (bump ++ chain .inheritedType type ",")

/-- Reads `where` and its requirements. -/
def whereClause : Rule F :=
  node .genericWhereClause (bump ++ nonempty "generic requirement" requirements)

/-- Reads a parameter of a function. -/
def functionParameter (type : Rule F) : Rule F :=
  node .functionParameter <|
    optional (seesKind .atSign) attributeList ++ expectWord "parameter name" ++
      optional seesWord bump ++ expect ":" ++ type ++ elementRest

/-- Reads the parameters of a function in their parentheses. -/
def parameterClause (type : Rule F) : Rule F :=
  node .parameterClause (expect "(" ++ elements (functionParameter type) ++ bump)

/-- Reads the parameters, effects and return type of a function. -/
def functionSignature (type : Rule F) : Rule F :=
  node .functionSignature <|
    parameterClause type ++ optional seesEffect effectSpecifiers ++
      optional (seesKind .arrow) (node .returnClause (bump ++ type))

/-- Reads `=` and a type. -/
def typeInitializer (type : Rule F) : Rule F := node .typeInitializer (expect "=" ++ type)

/-- Reads the accessors of a variable or a subscript. -/
def accessorBlock : Rule F := node .accessorBlock group

/-- Reads items in braces. -/
def itemBlock (item : Rule F) (kind : NodeKind) : Rule F :=
  node kind <|
    expect "\x7b" ++ many (fun ts => !sees "\x7d" ts)
      (require (fun ts => !seesEnd ts) "'\x7d'" item) ++ bump

/-- Reads the items of a code block, if there is one. -/
def body (item : Rule F) : Rule F := optional (sees "\x7b") (itemBlock item .codeBlock)

end Rule

/-! ## Names made of operator characters -/

/-- A token that may be part of an operator. -/
def isOperatorToken (t : Token) : Bool :=
  match t.kind with
  | .punct => !(["(", ")", "[", "]", "\x7b", "\x7d", ",", ":", ";"].contains t.text)
  | .arrow | .ellipsis => true
  | _ => false

/-- The next token may be part of an operator. -/
def seesOperator : Lookahead := fun ts => ts.head?.any isOperatorToken

/-- The kinds of declaration that an import may pick out. -/
def importKinds : List String :=
  ["typealias", "struct", "class", "enum", "protocol", "let", "var", "func"]

namespace Rule

/-- Reads a word, or a run of adjacent operator tokens, as a name. -/
def functionName : Rule F :=
  node .name <|
    either seesWord bump <|
      require seesOperator "name" bump ++
        many (fun ts => seesOperator ts && ts.head?.any Token.isAdjacent) bump

/-! ## Declarations, after the keyword -/

def importRest : Rule F :=
  optional (fun ts => importKinds.contains (textAt 0 ts) && isWordAt 1 ts) bump ++
    node .importPath
      (expectWord "module name" ++
        many (fun ts => sees "." ts && (isWordAt 1 ts || ts[1]?.any (·.kind == .punct))) (bumps 2))

/-- Reads what follows the name of a container: generic parameters, inherited types, requirements and
members. -/
def containerRest (type item : Rule F) : Rule F :=
  optional (sees "<") (genericParameterClause type) ++
    optional (sees ":") (inheritanceClause type) ++ optional (sees "where") whereClause ++
    itemBlock item .memberBlock

/-- Reads the signature of a function with all that goes with it, up to its body. -/
def signatureRest (type : Rule F) : Rule F :=
  optional (sees "<") (genericParameterClause type) ++ functionSignature type ++
    optional (sees "where") whereClause

def functionRest (type item : Rule F) : Rule F := functionName ++ signatureRest type ++ body item

def initializerRest (type item : Rule F) : Rule F :=
  optional (fun ts => seesAdjacent "?" ts || seesAdjacent "!" ts) bump ++ signatureRest type ++
    body item

def subscriptRest (type : Rule F) : Rule F :=
  signatureRest type ++ optional (sees "\x7b") accessorBlock

/-- Reads a pattern with its type, its initial value and its accessors. -/
def patternBinding (type : Rule F) : Rule F :=
  node .patternBinding <|
    node .pattern (either (sees "(") group (expectWord "pattern")) ++
      optional (sees ":") (node .typeClause (bump ++ type)) ++
      optional (sees "=") initializerClause ++ optional (sees "\x7b") accessorBlock

def variableRest (type : Rule F) : Rule F :=
  patternBinding type ++ many (sees ",") (bump ++ patternBinding type)

def typealiasRest (type : Rule F) : Rule F :=
  name ++ optional (sees "<") (genericParameterClause type) ++ typeInitializer type ++
    optional (sees "where") whereClause

def associatedTypeRest (type : Rule F) : Rule F :=
  name ++ optional (sees ":") (inheritanceClause type) ++
    optional (sees "=") (typeInitializer type) ++ optional (sees "where") whereClause

/-- Reads a case of an enumeration with its associated values and its raw value. -/
def enumCaseElement (type : Rule F) : Rule F :=
  node .enumCaseElement <|
    name ++
      optional (sees "(")
        (node .enumCaseParameterClause
          (bump ++ elements (tupleElement type .enumCaseParameter) ++ bump)) ++
      optional (sees "=") initializerClause

def enumCaseRest (type : Rule F) : Rule F :=
  enumCaseElement type ++ many (sees ",") (bump ++ enumCaseElement type)

def operatorRest : Rule F :=
  functionName ++
    optional (sees ":")
      (node .operatorPrecedence
        (bump ++ expectWord "precedence group" ++
          many (sees ",") (bump ++ expectWord "precedence group"))) ++
    optional (sees "\x7b") (node .opaqueBlock group)

def precedenceGroupRest : Rule F :=
  name ++ node .opaqueBlock (require (sees "\x7b") "'\x7b'" group)

end Rule

/-- The kind of declaration that a keyword introduces. -/
def declarationKind (keyword : String) : NodeKind :=
  match keyword with
  | "import" => .importDecl
  | "class" => .classDecl
  | "struct" => .structDecl
  | "enum" => .enumDecl
  | "actor" => .actorDecl
  | "protocol" => .protocolDecl
  | "extension" => .extensionDecl
  | "func" => .functionDecl
  | "init" => .initializerDecl
  | "deinit" => .deinitializerDecl
  | "subscript" => .subscriptDecl
  | "var" | "let" => .variableDecl
  | "typealias" => .typealiasDecl
  | "associatedtype" => .associatedTypeDecl
  | "case" => .enumCaseDecl
  | "operator" => .operatorDecl
  | _ => .precedenceGroupDecl

namespace Rule

/-- Reads what follows the keyword of a declaration of this kind. -/
def declarationRest (type item : Rule F) : NodeKind → Rule F
  | .importDecl => importRest
  | .classDecl | .structDecl | .enumDecl | .actorDecl | .protocolDecl =>
    name ++ containerRest type item
  | .extensionDecl => type ++ containerRest type item
  | .functionDecl => functionRest type item
  | .initializerDecl => initializerRest type item
  | .deinitializerDecl => body item
  | .subscriptDecl => subscriptRest type
  | .variableDecl => variableRest type
  | .typealiasDecl => typealiasRest type
  | .associatedTypeDecl => associatedTypeRest type
  | .enumCaseDecl => enumCaseRest type
  | .operatorDecl => operatorRest
  | _ => precedenceGroupRest

/-- Reads a declaration of a given kind. -/
def declaration (type item : Rule F) (kind : NodeKind) : Rule F :=
  node kind (introducer ++ declarationRest type item kind)

/-! ## Conditional compilation and statements -/

/-- Reads the condition of a clause, which runs to the end of its line. -/
def ifConfigCondition : Rule F :=
  require (fun ts => !(seesEnd ts || seesNewline ts)) "condition" <|
    node .ifConfigCondition (bump ++ many (fun ts => !(seesEnd ts || seesNewline ts)) bump)

/-- Reads a clause of conditional compilation: its directive, its condition and its items. -/
def ifConfigClause (item : Rule F) : Rule F :=
  node .ifConfigClause <|
    either (sees "#else") bump (bump ++ ifConfigCondition) ++
      many (fun ts => !seesClauseEnd ts)
        (require (fun ts => !(seesEnd ts || sees "\x7d" ts)) "'#endif'" item)

/-- Reads the clauses from `#if` to `#endif`. -/
def ifConfig (item : Rule F) : Rule F :=
  node .ifConfigDecl <|
    ifConfigClause item ++
      many (fun ts => seesClauseEnd ts && !sees "#endif" ts) (ifConfigClause item) ++ bump

/-- Reads a statement. -/
def statement : Rule F :=
  require (fun ts => !(sees "\x7d" ts || seesClauseEnd ts)) "declaration or statement" <|
    node .statement statementRun

/-! ## Items -/

/-- Reads an item whose types and inner items are read by `type` and `item`. -/
def itemBody (type item : Rule F) : Rule F :=
  either (sees ";") bump <|
    either (sees "#if") (ifConfig item) fun ts =>
      match declarationStart? ts with
      | some rest => declaration type item (declarationKind (textAt 0 rest)) ts
      | none => statement ts

/-- Reads an item that is nested at most `n` levels deep. -/
def item : Nat → Rule F
  | 0 => tooDeep
  | n + 1 => itemBody (type n) (item n)

end Rule

end SwiftOutline
