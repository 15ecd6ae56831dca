import SwiftOutline.Descriptor.Labels
import SwiftOutline.Descriptor.Void
import SwiftOutline.Grammar.Parse
import SwiftOutline.Tree.Attribute

/-!
# From type annotations to descriptors

A type annotation is peeled down to its core: attributes and specifiers, optionals, and parentheses
around a single type without labels come off. The core decides the variant of the descriptor. The
annotation is optional if an optional stands above its core, with nothing but such wrappings in
between.
-/

namespace SwiftOutline

namespace Place

/-! ## Peeling -/

/-- The types of the elements in a node's parenthesized list. -/
def elementTypes (p : Place) : List Place :=
  match p.child? .tupleTypeElementList with
  | some list => list.childNodes.filterMap childType?
  | none => []

/-- The type inside parentheses that only group: a single element without label, ellipsis or default
value, whose type is not void. -/
def transparent? (p : Place) : Option Place :=
  match p.child? .tupleTypeElementList with
  | some list =>
    match list.childNodes with
    | [element] =>
      let labels := element.tree.elementLabels
      if labels.name.isEmpty && !labels.variadic && labels.defaultArgument.isNone then
        element.childType?.filter fun inner => !isVoidSpelling inner.text
      else none
    | _ => none
  | none => none

/-- The type directly inside a wrapping that peels off. -/
def unwrapped? (p : Place) : Option Place :=
  match p.kind? with
  | some .attributedType | some .optionalType | some .implicitlyUnwrappedOptionalType => p.childType?
  | some .tupleType => p.transparent?
  | _ => none

/-- The names of the attributes of an attributed type. -/
def typeAttributes (p : Place) : List String :=
  if p.isKind .attributedType then p.tree.attributes.map Attribute.name else []

/-- The type is attributed with `inout`. -/
def hasInout (p : Place) : Bool := p.isKind .attributedType && p.tree.hasToken "inout"

/-! ## Types below -/

theorem holdsBelow_of_elementTypes {p q : Place} (h : q ∈ p.elementTypes) : p.HoldsBelow q := by
  unfold elementTypes at h
  split at h
  · next list hlist => exact (holdsBelow_of_entries h).of_below (below_of_child? hlist)
  · cases h

/-- The type inside grouping parentheses is that of their element. -/
theorem mem_elementTypes_of_transparent? {p q : Place} (h : p.transparent? = some q) :
    q ∈ p.elementTypes := by
  unfold transparent? at h
  split at h
  · next list hlist =>
    split at h
    · next element helement =>
      simp only at h
      split at h
      · rw [elementTypes, hlist]
        refine List.mem_filterMap.mpr ⟨element, ?_, Option.eq_some_of_filter_eq_some h⟩
        rw [helement]
        exact List.mem_singleton_self element
      · cases h
    · cases h
  · cases h

theorem holdsBelow_of_unwrapped? {p q : Place} (h : p.unwrapped? = some q) : p.HoldsBelow q := by
  unfold unwrapped? at h
  split at h
  · exact holdsBelow_of_childType? h
  · exact holdsBelow_of_childType? h
  · exact holdsBelow_of_childType? h
  · exact holdsBelow_of_elementTypes (mem_elementTypes_of_transparent? h)
  · cases h

/-! ## The core -/

/-- What is left of an annotation after peeling: the core, and what the wrappings say. -/
structure Peeled where
  core : Place
  attributes : List String
  isInout : Bool

/-- Takes off all wrappings of an annotation. -/
def peel (p : Place) : Peeled :=
  match _h : p.unwrapped? with
  | none => ⟨p, p.typeAttributes, p.hasInout⟩
  | some q =>
    let inner := q.peel
    ⟨inner.core, p.typeAttributes ++ inner.attributes, p.hasInout || inner.isInout⟩
termination_by sizeOf p.tree
decreasing_by exact (holdsBelow_of_unwrapped? _h).below.sizeOf_lt

theorem sizeOf_core_peel (p : Place) : sizeOf p.peel.core.tree ≤ sizeOf p.tree := by
  fun_induction peel p with
  | case1 p _ => exact Nat.le_refl _
  | case2 p q h _ ih =>
    exact Nat.le_trans ih (Nat.le_of_lt (holdsBelow_of_unwrapped? h).below.sizeOf_lt)

/-- The type without attributes and specifiers in front. -/
def withoutAttributes (p : Place) : Place :=
  match _h : p.childType? with
  | some q => if p.isKind .attributedType then q.withoutAttributes else p
  | none => p
termination_by sizeOf p.tree
decreasing_by exact (holdsBelow_of_childType? _h).below.sizeOf_lt

/-- An optional stands above, and only attributed types and grouping parentheses in between. -/
def hasOptionalAbove : List Tree → Bool
  | [] => false
  | t :: above =>
    match t.kind? with
    | some .optionalType | some .implicitlyUnwrappedOptionalType => true
    | some .attributedType => hasOptionalAbove above
    | some .tupleTypeElement =>
      match above with
      | _ :: tuple :: above' =>
        tuple.isKind .tupleType && (transparent? ⟨tuple, above'⟩).isSome && hasOptionalAbove above'
      | _ => false
    | _ => false

/-- The core is void: a spelling of it, or empty parentheses. -/
def isVoidCore (p : Place) : Bool :=
  isVoidSpelling p.text || (p.isKind .tupleType && p.elementTypes.isEmpty)

/-- The core is a `Result` with generic arguments. -/
def isResult (p : Place) : Bool :=
  p.tree.firstToken?.any (·.text == "Result") && (p.child? .genericArgumentClause).isSome

/-- The types in a core's generic arguments. -/
def argumentTypes (p : Place) : List Place :=
  match p.child? .genericArgumentClause with
  | some clause => clause.childNodes.filterMap childType?
  | none => []

theorem holdsBelow_of_argumentTypes {p q : Place} (h : q ∈ p.argumentTypes) : p.HoldsBelow q := by
  unfold argumentTypes at h
  split at h
  · next clause hclause => exact (holdsBelow_of_entries h).of_below (below_of_child? hclause)
  · cases h

/-! ## The two sides of a function type -/

/-- The input list is empty, or holds one type that is void attributes aside. -/
def isVoidInput (p : Place) : Bool :=
  match p.elementTypes with
  | [] => true
  | [only] => isVoidSpelling only.withoutAttributes.text
  | _ => false

/-- The types of the inputs; a void input list has none. -/
def inputTypes (p : Place) : List Place := if p.isVoidInput then [] else p.elementTypes

/-- The text of the input list: from the first token to the closing parenthesis. -/
def inputText (p : Place) : String :=
  if p.tree.hasToken ")" then
    let isClose (t : Tree) : Bool := t.token?.any (·.text == ")")
    let before := p.tree.children.takeWhile fun t => !isClose t
    let close := (p.tree.children.dropWhile fun t => !isClose t).take 1
    Token.joined (Tree.forestTokens (before ++ close))
  else ""

/-- A return type says "nothing": it is missing, or void attributes aside. -/
def isVoidOutput : Option Place → Bool
  | none => true
  | some p => isVoidSpelling p.withoutAttributes.text

/-- The types of the outputs. A tuple stands for its elements, any other type for itself. -/
def outputTypes (result : Option Place) : List Place :=
  match result with
  | none => []
  | some p =>
    if isVoidSpelling p.withoutAttributes.text then []
    else if p.isKind .tupleType then p.elementTypes
    else [p]

/-- The text of a return type, empty if it is missing. -/
def outputText (result : Option Place) : String := (result.map text).getD ""

/-- The effects hold `async` or `reasync`. -/
def isAsync (specifiers : Option Place) : Bool :=
  specifiers.any fun p => p.tree.hasToken "async" || p.tree.hasToken "reasync"

/-- The effects hold `throws` or `rethrows`. -/
def isThrowing (specifiers : Option Place) : Bool :=
  specifiers.any fun p => p.tree.hasToken "throws" || p.tree.hasToken "rethrows"

theorem holdsBelow_of_inputTypes {p q : Place} (h : q ∈ p.inputTypes) : p.HoldsBelow q := by
  unfold inputTypes at h
  split at h
  · cases h
  · exact holdsBelow_of_elementTypes h

/-- The outputs are the return type or stand in it. -/
theorem eq_or_holdsBelow_of_outputTypes {result : Option Place} {q : Place} (h : q ∈ outputTypes result) :
    ∃ r ∈ result, q = r ∨ r.HoldsBelow q := by
  unfold outputTypes at h
  split at h
  · cases h
  · next r =>
    split at h
    · cases h
    · split at h
      · exact ⟨r, rfl, .inr (holdsBelow_of_elementTypes h)⟩
      · exact ⟨r, rfl, .inl (List.mem_singleton.mp h)⟩

theorem holdsBelow_of_functionOutputs {p q : Place} (h : q ∈ outputTypes p.childType?) : p.HoldsBelow q := by
  obtain ⟨r, hr, rfl | hq⟩ := eq_or_holdsBelow_of_outputTypes h
  · exact holdsBelow_of_childType? hr
  · exact hq.of_below (holdsBelow_of_childType? hr).below

/-! ## Descriptors -/

/-- The fields of the descriptor of an annotation. -/
def descriptorFields (p : Place) : Fields :=
  let labels := p.labels
  let peeled := p.peel
  { (Fields.ofType p.text).withNames labels.name labels.secondName with
    variadic := labels.variadic
    defaultArgument := labels.defaultArgument
    attributes := peeled.attributes
    isInout := peeled.isInout
    bareType := p.withoutAttributes.text
    isOptional := hasOptionalAbove peeled.core.above }

/-- What the core of a closure says beside its two sides. -/
def closureTraits (fields : Fields) (core : Place) : ClosureTraits where
  isVoidInput := core.isVoidInput
  isVoidOutput := isVoidOutput core.childType?
  isEscaping := fields.attributes.contains "escaping"
  isAutoEscaping := fields.isOptional
  isAsync := isAsync (core.child? .effectSpecifiers)
  isThrowing := isThrowing (core.child? .effectSpecifiers)
  inputType := core.inputText
  outputType := outputText core.childType?
  declarationText := core.text

/-- The descriptor of a type annotation. -/
def decompose (p : Place) : Descriptor :=
  let core := p.peel.core
  let fields := p.descriptorFields
  if core.isVoidCore then .standard fields []
  else
    match core.kind? with
    | some .functionType =>
      .closure fields (core.inputTypes.attach.map fun ⟨q, _⟩ => q.decompose)
        ((outputTypes core.childType?).attach.map fun ⟨q, _⟩ => q.decompose)
        (closureTraits fields core)
    | some .tupleType => .tuple fields (core.elementTypes.attach.map fun ⟨q, _⟩ => q.decompose)
    | some .identifierType =>
      .standard fields
        (if core.isResult then core.argumentTypes.attach.map fun ⟨q, _⟩ => q.decompose else [])
    | _ => .standard fields []
termination_by sizeOf p.tree
decreasing_by
  all_goals have hcore := sizeOf_core_peel p
  · exact Nat.lt_of_lt_of_le (holdsBelow_of_inputTypes ‹_›).below.sizeOf_lt hcore
  · exact Nat.lt_of_lt_of_le (holdsBelow_of_functionOutputs ‹_›).below.sizeOf_lt hcore
  · exact Nat.lt_of_lt_of_le (holdsBelow_of_elementTypes ‹_›).below.sizeOf_lt hcore
  · exact Nat.lt_of_lt_of_le (holdsBelow_of_argumentTypes ‹_›).below.sizeOf_lt hcore

/-- The descriptor of a type annotation, by the core of the annotation. -/
theorem decompose_eq (p : Place) :
    p.decompose =
      if p.peel.core.isVoidCore then .standard p.descriptorFields []
      else
        match p.peel.core.kind? with
        | some .functionType =>
          .closure p.descriptorFields (p.peel.core.inputTypes.map decompose)
            ((outputTypes p.peel.core.childType?).map decompose)
            (closureTraits p.descriptorFields p.peel.core)
        | some .tupleType => .tuple p.descriptorFields (p.peel.core.elementTypes.map decompose)
        | some .identifierType =>
          .standard p.descriptorFields
            (if p.peel.core.isResult then p.peel.core.argumentTypes.map decompose else [])
        | _ => .standard p.descriptorFields [] := by
  rw [decompose]
  simp

end Place

/-- The descriptor of a type given as text. -/
def decomposeType (source : String) : Except ParseError Descriptor :=
  (parseType source).map fun tree =>
    match (Place.root tree).childType? with
    | some p => p.decompose
    | none => Descriptor.ofType (Text.trim source)

end SwiftOutline
