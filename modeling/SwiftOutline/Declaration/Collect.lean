import SwiftOutline.Declaration.Outline
import SwiftOutline.Declaration.Parts
import SwiftOutline.Descriptor.Decompose
import SwiftOutline.Tree.Traversal

/-!
# Collecting declarations

One walk over the tree of a file records its declarations. It goes into containers and into blocks of
conditional compilation; what stands in the body of a function or in an accessor is not recorded.
-/

namespace SwiftOutline

namespace Place

/-! ## Owners and headers -/

/-- The owner record of a container. -/
def toOwner (p : Place) : Owner where
  attributes := p.tree.attributes
  modifiers := p.tree.modifiers
  keyword := p.tree.keyword
  name := p.tree.declaredName

/-- The nearest container around a declaration. -/
def owner? (p : Place) : Option Owner :=
  (p.ancestors.find? fun a => a.kind?.any NodeKind.isContainer).map toOwner

/-- The header of a declaration under a given name, still without locations. -/
def header (p : Place) (name : String) : Header where
  attributes := p.tree.attributes
  modifiers := p.tree.modifiers
  keyword := p.tree.keyword
  name := name
  owner := p.owner?
  span := p.span
  startLocation := .empty
  endLocation := .empty

/-! ## Signatures -/

/-- The parameters of a function. -/
def parameters (p : Place) : List Descriptor :=
  match (p.child? .functionSignature).bind (child? .parameterClause) with
  | some clause => (clause.childNodes.filterMap childType?).map decompose
  | none => []

/-- The return type of a function. -/
def returnType? (p : Place) : Option Place :=
  ((p.child? .functionSignature).bind (child? .returnClause)).bind childType?

/-- What a function returns. -/
def returns (p : Place) : List Descriptor := (outputTypes p.returnType?).map decompose

/-- The effects of a function. -/
def effects? (p : Place) : Option Place :=
  (p.child? .functionSignature).bind (child? .effectSpecifiers)

def hasBody (p : Place) : Bool := (p.child? .codeBlock).isSome

/-! ## Records -/

def containerRecord (p : Place) : ContainerRecord where
  header := p.header p.tree.declaredName
  genericParameters := p.tree.genericParameters
  inheritedTypes := p.tree.inheritedTypes
  whereClause := p.tree.whereText

def functionRecord (p : Place) : FunctionRecord where
  header := p.header p.tree.declaredName
  genericParameters := p.tree.genericParameters
  parameters := p.parameters
  returnType := p.returnType?.map text
  returns := p.returns
  isVoidReturn := isVoidOutput p.returnType?
  isAsync := isAsync p.effects?
  isThrowing := isThrowing p.effects?
  whereClause := p.tree.whereText
  hasBody := p.hasBody

def initializerRecord (p : Place) : InitializerRecord where
  header := p.header p.tree.keyword
  isFailable := p.tree.hasToken "?" || p.tree.hasToken "!"
  genericParameters := p.tree.genericParameters
  parameters := p.parameters
  isAsync := isAsync p.effects?
  isThrowing := isThrowing p.effects?
  whereClause := p.tree.whereText
  hasBody := p.hasBody

def deinitializerRecord (p : Place) : DeinitializerRecord where
  header := p.header p.tree.keyword
  hasBody := p.hasBody

/-- The accessors of a variable or a subscript. -/
def accessors (p : Place) : List String :=
  ((p.child? .accessorBlock).map (·.tree.accessors)).getD []

def subscriptRecord (p : Place) : SubscriptRecord where
  header := p.header p.tree.keyword
  genericParameters := p.tree.genericParameters
  parameters := p.parameters
  returnType := p.returnType?.map text
  returns := p.returns
  accessors := p.accessors

/-- The accessors only observe a stored value. -/
def observesOnly (accessors : List String) : Bool :=
  !accessors.isEmpty && accessors.all ["willSet", "didSet"].contains

/-- The record of one binding of a variable declaration. -/
def variableRecord (p binding : Place) : VariableRecord where
  header := p.header (((binding.child? .pattern).map text).getD "")
  declaredType := ((binding.child? .typeClause).bind childType?).map decompose
  initializer := binding.tree.initializer?
  accessors := binding.accessors
  isComputed := (binding.child? .accessorBlock).isSome && !observesOnly binding.accessors

def typealiasRecord (p : Place) : TypealiasRecord where
  header := p.header p.tree.declaredName
  genericParameters := p.tree.genericParameters
  aliased :=
    (((p.child? .typeInitializer).bind childType?).map decompose).getD (Descriptor.ofType "")

def associatedTypeRecord (p : Place) : AssociatedTypeRecord where
  header := p.header p.tree.declaredName
  inheritedTypes := p.tree.inheritedTypes
  defaultType := ((p.child? .typeInitializer).bind childType?).map text

/-- The record of one element of a case declaration. -/
def enumCaseRecord (p element : Place) : EnumCaseRecord where
  header := p.header element.tree.declaredName
  associatedValues :=
    match element.child? .enumCaseParameterClause with
    | some clause => (clause.childNodes.filterMap childType?).map decompose
    | none => []
  rawValue := element.tree.initializer?

def importRecord (p : Place) : ImportRecord :=
  let path := ((p.child? .importPath).map text).getD ""
  ⟨p.header path, p.tree.childTokens[1]?.map Token.text, path⟩

def operatorRecord (p : Place) : OperatorRecord where
  header := p.header p.tree.declaredName
  fixity :=
    (p.tree.modifiers.map Modifier.name).find? ["prefix", "infix", "postfix"].contains
  precedenceGroup :=
    (p.child? .operatorPrecedence).bind fun precedence =>
      (precedence.tree.childTokens.find? Token.isWord).map Token.text

def precedenceGroupRecord (p : Place) : PrecedenceGroupRecord where
  header := p.header p.tree.declaredName
  body := ((p.child? .opaqueBlock).map text).getD ""

/-- The condition of a clause of conditional compilation. -/
def condition? (p : Place) : Option String := (p.child? .ifConfigCondition).map text

/-- A clause of conditional compilation by its directive and its condition. -/
def clauseText (p : Place) : String :=
  match p.condition? with
  | some condition => p.tree.keyword ++ " " ++ condition
  | none => p.tree.keyword

def conditionalRecord (p : Place) : ConditionalRecord where
  header :=
    { p.header (((p.child? .ifConfigClause).bind condition?).getD "") with keyword := "#if" }
  clauses := (p.childNodes.filter (isKind .ifConfigClause)).map clauseText

/-! ## The walk -/

/-- The records of a node: one for each binding of a variable declaration and for each element of a
case declaration, one for any other declaration, and none for any other node. -/
def declarations (p : Place) : List Declaration :=
  match p.kind? with
  | some .classDecl | some .structDecl | some .enumDecl | some .actorDecl | some .protocolDecl
  | some .extensionDecl => [.container p.containerRecord]
  | some .functionDecl => [.function p.functionRecord]
  | some .initializerDecl => [.initializer p.initializerRecord]
  | some .deinitializerDecl => [.deinitializer p.deinitializerRecord]
  | some .subscriptDecl => [.subscript p.subscriptRecord]
  | some .variableDecl =>
    (p.childNodes.filter (isKind .patternBinding)).map fun b => .binding (p.variableRecord b)
  | some .typealiasDecl => [.typealias p.typealiasRecord]
  | some .associatedTypeDecl => [.associatedType p.associatedTypeRecord]
  | some .enumCaseDecl =>
    (p.childNodes.filter (isKind .enumCaseElement)).map fun e => .enumCase (p.enumCaseRecord e)
  | some .importDecl => [.importing p.importRecord]
  | some .operatorDecl => [.operator p.operatorRecord]
  | some .precedenceGroupDecl => [.precedenceGroup p.precedenceGroupRecord]
  | some .ifConfigDecl => [.conditional p.conditionalRecord]
  | _ => []

/-- The walk goes into the file, containers with their members, and conditional compilation. -/
def collectPolicy (p : Place) : Verdict :=
  match p.kind? with
  | some .sourceFile | some .memberBlock | some .ifConfigClause | some .ifConfigDecl => .descend
  | some kind => if kind.isContainer then .descend else .prune
  | none => .prune

/-- The outline of a tree, still without locations. -/
def collect (p : Place) : Outline :=
  .ofDeclarations ((p.visited collectPolicy).flatMap declarations)

end Place

/-- The outline of a source text. -/
def outlineOf (source : String) : Except ParseError Outline :=
  (parseSource source).map fun tree => (Place.root tree).collect.locate (some source)

end SwiftOutline
