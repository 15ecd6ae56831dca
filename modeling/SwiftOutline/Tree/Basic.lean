import SwiftOutline.Token.Basic

/-!
# Syntax trees

A tree keeps every token of the text that it was read from: a node is a kind and a list of children,
each a token or a node again. Its text and its span are those of its tokens.
-/

namespace SwiftOutline

/-- The kinds of node. -/
inductive NodeKind where
  -- Roots
  | sourceFile
  | typeRoot
  -- Declarations
  | importDecl
  | classDecl
  | structDecl
  | enumDecl
  | actorDecl
  | protocolDecl
  | extensionDecl
  | functionDecl
  | initializerDecl
  | deinitializerDecl
  | subscriptDecl
  | variableDecl
  | typealiasDecl
  | associatedTypeDecl
  | enumCaseDecl
  | operatorDecl
  | precedenceGroupDecl
  | ifConfigDecl
  -- Parts of declarations
  | ifConfigClause
  | ifConfigCondition
  | attributeList
  | declAttribute
  | attributeArguments
  | modifierList
  | declModifier
  | name
  | importPath
  | memberBlock
  | codeBlock
  | accessorBlock
  | opaqueBlock
  | genericParameterClause
  | genericParameter
  | genericWhereClause
  | inheritanceClause
  | inheritedType
  | functionSignature
  | parameterClause
  | functionParameter
  | effectSpecifiers
  | returnClause
  | patternBinding
  | pattern
  | typeClause
  | typeInitializer
  | initializerClause
  | enumCaseElement
  | enumCaseParameterClause
  | enumCaseParameter
  | operatorPrecedence
  -- Runs of tokens without structure
  | expr
  | statement
  -- Types
  | identifierType
  | memberType
  | genericArgumentClause
  | genericArgument
  | optionalType
  | implicitlyUnwrappedOptionalType
  | arrayType
  | dictionaryType
  | tupleType
  | tupleTypeElementList
  | tupleTypeElement
  | functionType
  | attributedType
  | someOrAnyType
  | compositionType
  | metatypeType
  | suppressedType
deriving DecidableEq, Repr, Inhabited

namespace NodeKind

/-- The name under which a kind of node is reported. -/
def label : NodeKind → String
  | sourceFile => "SourceFile"
  | typeRoot => "TypeRoot"
  | importDecl => "ImportDecl"
  | classDecl => "ClassDecl"
  | structDecl => "StructDecl"
  | enumDecl => "EnumDecl"
  | actorDecl => "ActorDecl"
  | protocolDecl => "ProtocolDecl"
  | extensionDecl => "ExtensionDecl"
  | functionDecl => "FunctionDecl"
  | initializerDecl => "InitializerDecl"
  | deinitializerDecl => "DeinitializerDecl"
  | subscriptDecl => "SubscriptDecl"
  | variableDecl => "VariableDecl"
  | typealiasDecl => "TypealiasDecl"
  | associatedTypeDecl => "AssociatedTypeDecl"
  | enumCaseDecl => "EnumCaseDecl"
  | operatorDecl => "OperatorDecl"
  | precedenceGroupDecl => "PrecedenceGroupDecl"
  | ifConfigDecl => "IfConfigDecl"
  | ifConfigClause => "IfConfigClause"
  | ifConfigCondition => "IfConfigCondition"
  | attributeList => "AttributeList"
  | declAttribute => "Attribute"
  | attributeArguments => "AttributeArguments"
  | modifierList => "ModifierList"
  | declModifier => "DeclModifier"
  | name => "Name"
  | importPath => "ImportPath"
  | memberBlock => "MemberBlock"
  | codeBlock => "CodeBlock"
  | accessorBlock => "AccessorBlock"
  | opaqueBlock => "OpaqueBlock"
  | genericParameterClause => "GenericParameterClause"
  | genericParameter => "GenericParameter"
  | genericWhereClause => "GenericWhereClause"
  | inheritanceClause => "InheritanceClause"
  | inheritedType => "InheritedType"
  | functionSignature => "FunctionSignature"
  | parameterClause => "ParameterClause"
  | functionParameter => "FunctionParameter"
  | effectSpecifiers => "EffectSpecifiers"
  | returnClause => "ReturnClause"
  | patternBinding => "PatternBinding"
  | pattern => "Pattern"
  | typeClause => "TypeAnnotation"
  | typeInitializer => "TypeInitializer"
  | initializerClause => "InitializerClause"
  | enumCaseElement => "EnumCaseElement"
  | enumCaseParameterClause => "EnumCaseParameterClause"
  | enumCaseParameter => "EnumCaseParameter"
  | operatorPrecedence => "OperatorPrecedence"
  | expr => "Expr"
  | statement => "Statement"
  | identifierType => "IdentifierType"
  | memberType => "MemberType"
  | genericArgumentClause => "GenericArgumentClause"
  | genericArgument => "GenericArgument"
  | optionalType => "OptionalType"
  | implicitlyUnwrappedOptionalType => "ImplicitlyUnwrappedOptionalType"
  | arrayType => "ArrayType"
  | dictionaryType => "DictionaryType"
  | tupleType => "TupleType"
  | tupleTypeElementList => "TupleTypeElementList"
  | tupleTypeElement => "TupleTypeElement"
  | functionType => "FunctionType"
  | attributedType => "AttributedType"
  | someOrAnyType => "SomeOrAnyType"
  | compositionType => "CompositionType"
  | metatypeType => "MetatypeType"
  | suppressedType => "SuppressedType"

/-- The kinds of node that are type expressions. -/
def isType : NodeKind → Bool
  | identifierType | memberType | optionalType | implicitlyUnwrappedOptionalType | arrayType
  | dictionaryType | tupleType | functionType | attributedType | someOrAnyType | compositionType
  | metatypeType | suppressedType => true
  | _ => false

/-- The two kinds of optional type, `T?` and `T!`. -/
def isOptional : NodeKind → Bool
  | optionalType | implicitlyUnwrappedOptionalType => true
  | _ => false

/-- The kinds of declaration that own a member block. -/
def isContainer : NodeKind → Bool
  | classDecl | structDecl | enumDecl | actorDecl | protocolDecl | extensionDecl => true
  | _ => false

/-- The kinds of declaration. -/
def isDecl : NodeKind → Bool
  | importDecl | classDecl | structDecl | enumDecl | actorDecl | protocolDecl | extensionDecl
  | functionDecl | initializerDecl | deinitializerDecl | subscriptDecl | variableDecl
  | typealiasDecl | associatedTypeDecl | enumCaseDecl | operatorDecl | precedenceGroupDecl
  | ifConfigDecl => true
  | _ => false

theorem isDecl_of_isContainer {k : NodeKind} (h : k.isContainer = true) : k.isDecl = true := by
  cases k <;> first | rfl | cases h

end NodeKind

/-- A token, or a node with its children in source order. -/
inductive Tree where
  | token (t : Token)
  | node (kind : NodeKind) (children : List Tree)
deriving Inhabited

namespace Tree

/-! ## One level down -/

/-- The kind of a node; a token has none. -/
def kind? : Tree → Option NodeKind
  | token _ => none
  | node k _ => some k

def children : Tree → List Tree
  | token _ => []
  | node _ cs => cs

def token? : Tree → Option Token
  | token t => some t
  | node _ _ => none

def isNode (t : Tree) : Bool := t.kind?.isSome

/-- The tree is a node of this kind. -/
def isKind (k : NodeKind) (t : Tree) : Bool := t.kind? == some k

/-- The tree is a type expression. -/
def isType (t : Tree) : Bool := t.kind?.any NodeKind.isType

/-- The tokens that are children themselves. -/
def childTokens (t : Tree) : List Token := t.children.filterMap token?

/-- The nodes that are children. -/
def childNodes (t : Tree) : List Tree := t.children.filter isNode

/-- The first child node of a kind. -/
def child? (k : NodeKind) (t : Tree) : Option Tree := t.children.find? (isKind k)

/-- The first child node that is a type expression. -/
def childType? (t : Tree) : Option Tree := t.children.find? isType

/-- A child token has exactly this text. -/
def hasToken (text : String) (t : Tree) : Bool := t.childTokens.any (·.text == text)

/-! ## The whole tree -/

mutual

/-- The tokens of a tree from left to right. -/
def tokens : Tree → List Token
  | token t => [t]
  | node _ cs => forestTokens cs

/-- The tokens of a list of trees from left to right. -/
def forestTokens : List Tree → List Token
  | [] => []
  | t :: ts => t.tokens ++ forestTokens ts

end

mutual

/-- The number of nodes in a tree. -/
def nodeCount : Tree → Nat
  | token _ => 0
  | node _ cs => forestNodeCount cs + 1

/-- The number of nodes in a list of trees. -/
def forestNodeCount : List Tree → Nat
  | [] => 0
  | t :: ts => t.nodeCount + forestNodeCount ts

end

theorem forestTokens_eq_flatMap (ts : List Tree) : forestTokens ts = ts.flatMap tokens := by
  induction ts with
  | nil => simp [forestTokens]
  | cons t ts ih => simp [forestTokens, ih]

/-- The source text from a tree's first token to its last. -/
def text (t : Tree) : String := Token.joined t.tokens

/-- The bytes from a tree's first token to its last; a tree without tokens has the empty span. -/
def span (t : Tree) : Span := Token.spanOf t.tokens

/-- The first token of a tree. -/
def firstToken? (t : Tree) : Option Token := t.tokens.head?

/-! ## Size -/

theorem sizeOf_lt_of_mem_children {t c : Tree} (h : c ∈ t.children) : sizeOf c < sizeOf t := by
  cases t with
  | token _ => simp [children] at h
  | node k cs =>
    have := List.sizeOf_lt_of_mem (show c ∈ cs from h)
    simp only [node.sizeOf_spec]
    omega

end Tree

end SwiftOutline
