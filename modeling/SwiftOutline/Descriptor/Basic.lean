/-!
# Descriptors

A descriptor is what a type annotation says, in a form that does not hang on how it was written: a
plain type, a tuple of descriptors, or a closure with descriptors for its inputs and outputs.
-/

namespace SwiftOutline

/-- What every descriptor has. -/
structure Fields where
  /-- Names of the attributes, without `@`. -/
  attributes : List String := []
  /-- The first name, `_` if the label is left out, empty if there is none. -/
  name : String := ""
  /-- The second name, empty if there is none. -/
  secondName : String := ""
  /-- The source text of the annotation. -/
  typeText : String
  variadic : Bool := false
  defaultArgument : Option String := none
  isInout : Bool := false
  isOptional : Bool := false
  /-- The name by which documentation calls the parameter. -/
  preferredName : Option String := none
  /-- The type text without the attributes and specifiers in front. -/
  bareType : String
  isLabelOmitted : Bool := false
deriving DecidableEq, Repr, Inhabited

/-- The name by which documentation calls a parameter: its second name, or else its first name unless
that stands for an omitted label. -/
def preferredName (name secondName : String) : Option String :=
  if !secondName.isEmpty then some secondName
  else if !name.isEmpty && name != "_" then some name
  else none

namespace Fields

/-- The fields of a type without labels. -/
def ofType (typeText : String) : Fields where
  typeText := typeText
  bareType := typeText

/-- The fields with two names, and with all that follows from the names. -/
def withNames (f : Fields) (name secondName : String) : Fields :=
  { f with
    name := name
    secondName := secondName
    isLabelOmitted := name == "_"
    preferredName := SwiftOutline.preferredName name secondName }

end Fields

/-- What only a closure has. -/
structure ClosureTraits where
  isVoidInput : Bool := false
  isVoidOutput : Bool := false
  isEscaping : Bool := false
  /-- An optional closure escapes without an attribute. -/
  isAutoEscaping : Bool := false
  isAsync : Bool := false
  isThrowing : Bool := false
  /-- The text of the input list with its parentheses. -/
  inputType : String := ""
  /-- The text of the return type. -/
  outputType : String := ""
  /-- The text of the whole function type. -/
  declarationText : String := ""
deriving DecidableEq, Repr, Inhabited

/-- What a type annotation says. The parameters of a standard type are the generic arguments of a
`Result`; other standard types have none. -/
inductive Descriptor where
  | standard (fields : Fields) (parameters : List Descriptor)
  | tuple (fields : Fields) (arguments : List Descriptor)
  | closure (fields : Fields) (inputs outputs : List Descriptor) (traits : ClosureTraits)
deriving Inhabited

namespace Descriptor

def fields : Descriptor → Fields
  | standard f _ => f
  | tuple f _ => f
  | closure f _ _ _ => f

/-- The name of the variant. -/
def variant : Descriptor → String
  | standard _ _ => "standard"
  | tuple _ _ => "tuple"
  | closure _ _ _ _ => "closure"

def typeText (d : Descriptor) : String := d.fields.typeText

def isOptional (d : Descriptor) : Bool := d.fields.isOptional

/-- A plain type without labels. -/
def ofType (typeText : String) : Descriptor := standard (Fields.ofType typeText) []

/-- The descriptor in the words of its source: names, type, ellipsis and default value. -/
def description (d : Descriptor) : String :=
  let f := d.fields
  let names :=
    if f.name.isEmpty then ""
    else if f.secondName.isEmpty then f.name ++ ": "
    else f.name ++ " " ++ f.secondName ++ ": "
  names ++ f.typeText ++ (if f.variadic then "..." else "") ++
    (f.defaultArgument.map (" = " ++ ·)).getD ""

/-- Descriptions in parentheses, with commas between them. -/
def describeList (ds : List Descriptor) : String :=
  "(" ++ String.intercalate ", " (ds.map description) ++ ")"

/-! ## Equality -/

mutual

/-- Equality of descriptors can be decided, and so can that of lists of them. -/
def decEq : (a b : Descriptor) → Decidable (a = b)
  | standard f ps, standard g qs =>
    match instDecidableEqFields f g, decEqList ps qs with
    | .isTrue hf, .isTrue hp => .isTrue (by rw [hf, hp])
    | .isFalse hf, _ => .isFalse fun h => hf (by cases h; rfl)
    | _, .isFalse hp => .isFalse fun h => hp (by cases h; rfl)
  | tuple f ps, tuple g qs =>
    match instDecidableEqFields f g, decEqList ps qs with
    | .isTrue hf, .isTrue hp => .isTrue (by rw [hf, hp])
    | .isFalse hf, _ => .isFalse fun h => hf (by cases h; rfl)
    | _, .isFalse hp => .isFalse fun h => hp (by cases h; rfl)
  | closure f is os t, closure g js ps u =>
    match instDecidableEqFields f g, decEqList is js, decEqList os ps, instDecidableEqClosureTraits t u with
    | .isTrue hf, .isTrue hi, .isTrue ho, .isTrue ht => .isTrue (by rw [hf, hi, ho, ht])
    | .isFalse hf, _, _, _ => .isFalse fun h => hf (by cases h; rfl)
    | _, .isFalse hi, _, _ => .isFalse fun h => hi (by cases h; rfl)
    | _, _, .isFalse ho, _ => .isFalse fun h => ho (by cases h; rfl)
    | _, _, _, .isFalse ht => .isFalse fun h => ht (by cases h; rfl)
  | standard _ _, tuple _ _ => .isFalse nofun
  | standard _ _, closure _ _ _ _ => .isFalse nofun
  | tuple _ _, standard _ _ => .isFalse nofun
  | tuple _ _, closure _ _ _ _ => .isFalse nofun
  | closure _ _ _ _, standard _ _ => .isFalse nofun
  | closure _ _ _ _, tuple _ _ => .isFalse nofun

def decEqList : (as bs : List Descriptor) → Decidable (as = bs)
  | [], [] => .isTrue rfl
  | [], _ :: _ => .isFalse nofun
  | _ :: _, [] => .isFalse nofun
  | a :: as, b :: bs =>
    match decEq a b, decEqList as bs with
    | .isTrue ha, .isTrue has => .isTrue (by rw [ha, has])
    | .isFalse ha, _ => .isFalse fun h => ha (by cases h; rfl)
    | _, .isFalse has => .isFalse fun h => has (by cases h; rfl)

end

instance : DecidableEq Descriptor := decEq

end Descriptor

end SwiftOutline
