import SwiftOutline.Descriptor.Basic
import SwiftOutline.Text.Position
import SwiftOutline.Tree.Attribute

/-!
# Declaration records

What is recorded of each declaration of a file. All records begin with the same header.
-/

namespace SwiftOutline

/-- A modifier, with its detail as in `private(set)`. -/
structure Modifier where
  name : String
  detail : Option String
deriving DecidableEq, Repr, Inhabited

/-- A generic parameter with the type that constrains it. -/
structure GenericParameter where
  name : String
  constraint : Option String
deriving DecidableEq, Repr, Inhabited

/-- The container that a declaration belongs to. -/
structure Owner where
  attributes : List Attribute
  modifiers : List Modifier
  keyword : String
  name : String
deriving DecidableEq, Repr, Inhabited

namespace Owner

/-- Two owners are the same container if keyword and name agree. -/
def isSame (a b : Owner) : Bool := a.keyword == b.keyword && a.name == b.name

def description (o : Owner) : String := o.keyword ++ " " ++ o.name

end Owner

/-- What every record begins with. The locations are empty until they are looked up. -/
structure Header where
  attributes : List Attribute
  modifiers : List Modifier
  keyword : String
  name : String
  owner : Option Owner
  /-- The bytes of the declaration. -/
  span : Span
  startLocation : Location
  endLocation : Location
deriving DecidableEq, Repr, Inhabited

namespace Header

def hasModifier (h : Header) (name : String) : Bool := h.modifiers.any (·.name == name)

def hasAttribute (h : Header) (name : String) : Bool := h.attributes.any (·.name == name)

end Header

/-! ## Records -/

/-- A class, structure, enumeration, actor, protocol or extension. -/
structure ContainerRecord where
  header : Header
  genericParameters : List GenericParameter
  inheritedTypes : List String
  whereClause : Option String
deriving DecidableEq, Inhabited

structure FunctionRecord where
  header : Header
  genericParameters : List GenericParameter
  parameters : List Descriptor
  returnType : Option String
  returns : List Descriptor
  isVoidReturn : Bool
  isAsync : Bool
  isThrowing : Bool
  whereClause : Option String
  hasBody : Bool
deriving DecidableEq, Inhabited

/-- The name of a function with the labels of its parameters, as in `move(_:to:)`. -/
def FunctionRecord.selector (f : FunctionRecord) : String :=
  f.header.name ++ "(" ++ String.join (f.parameters.map fun p => p.fields.name ++ ":") ++ ")"

structure InitializerRecord where
  header : Header
  /-- The initializer is `init?` or `init!`. -/
  isFailable : Bool
  genericParameters : List GenericParameter
  parameters : List Descriptor
  isAsync : Bool
  isThrowing : Bool
  whereClause : Option String
  hasBody : Bool
deriving DecidableEq, Inhabited

structure DeinitializerRecord where
  header : Header
  hasBody : Bool
deriving DecidableEq, Inhabited

structure SubscriptRecord where
  header : Header
  genericParameters : List GenericParameter
  parameters : List Descriptor
  returnType : Option String
  returns : List Descriptor
  accessors : List String
deriving DecidableEq, Inhabited

/-- One binding of a variable declaration. -/
structure VariableRecord where
  header : Header
  declaredType : Option Descriptor
  initializer : Option String
  accessors : List String
  isComputed : Bool
deriving DecidableEq, Inhabited

structure TypealiasRecord where
  header : Header
  genericParameters : List GenericParameter
  aliased : Descriptor
deriving DecidableEq, Inhabited

structure AssociatedTypeRecord where
  header : Header
  inheritedTypes : List String
  defaultType : Option String
deriving DecidableEq, Inhabited

/-- One element of a case declaration. -/
structure EnumCaseRecord where
  header : Header
  associatedValues : List Descriptor
  rawValue : Option String
deriving DecidableEq, Inhabited

structure ImportRecord where
  header : Header
  /-- The kind of declaration that is picked out of the module. -/
  importKind : Option String
  path : String
deriving DecidableEq, Inhabited

structure OperatorRecord where
  header : Header
  fixity : Option String
  precedenceGroup : Option String
deriving DecidableEq, Inhabited

structure PrecedenceGroupRecord where
  header : Header
  body : String
deriving DecidableEq, Inhabited

/-- A block of conditional compilation. Its name is the condition of its first clause. -/
structure ConditionalRecord where
  header : Header
  /-- Each clause's directive and condition. -/
  clauses : List String
deriving DecidableEq, Inhabited

/-- A record of any sort. -/
inductive Declaration where
  | container (r : ContainerRecord)
  | function (r : FunctionRecord)
  | initializer (r : InitializerRecord)
  | deinitializer (r : DeinitializerRecord)
  | subscript (r : SubscriptRecord)
  | binding (r : VariableRecord)
  | typealias (r : TypealiasRecord)
  | associatedType (r : AssociatedTypeRecord)
  | enumCase (r : EnumCaseRecord)
  | importing (r : ImportRecord)
  | operator (r : OperatorRecord)
  | precedenceGroup (r : PrecedenceGroupRecord)
  | conditional (r : ConditionalRecord)
deriving DecidableEq, Inhabited

/-! ## Sorts of record -/

/-- The sorts of record. -/
inductive DeclarationKind where
  | container
  | function
  | initializer
  | deinitializer
  | subscript
  | binding
  | typealias
  | associatedType
  | enumCase
  | importing
  | operator
  | precedenceGroup
  | conditional
deriving DecidableEq, Repr, Inhabited

namespace DeclarationKind

/-- All sorts, in the order in which records are listed. -/
def all : List DeclarationKind :=
  [container, function, initializer, deinitializer, subscript, binding, typealias,
   associatedType, enumCase, importing, operator, precedenceGroup, conditional]

theorem mem_all (k : DeclarationKind) : k ∈ all := by
  cases k <;> decide

/-- The name under which a sort is counted. -/
def label : DeclarationKind → String
  | container => "type"
  | function => "function"
  | initializer => "initializer"
  | deinitializer => "deinitializer"
  | subscript => "subscript"
  | binding => "variable"
  | typealias => "typealias"
  | associatedType => "associated_type"
  | enumCase => "enum_case"
  | importing => "import"
  | operator => "operator"
  | precedenceGroup => "precedence_group"
  | conditional => "conditional_block"

/-- The sort with a given name. -/
def ofLabel? (s : String) : Option DeclarationKind := all.find? (·.label == s)

end DeclarationKind

end SwiftOutline
