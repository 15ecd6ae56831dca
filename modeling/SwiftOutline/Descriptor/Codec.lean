import SwiftOutline.Descriptor.Basic
import SwiftOutline.Json.Basic

/-!
# Descriptors as JSON

A descriptor alone is an object with the name of its variant and a payload. In a list each entry has
an index besides, so that the order survives when entries are grouped by variant: reading a list puts
its entries in the order of their indexes, and entries of equal index stay as they were.
-/

namespace SwiftOutline

/-- Offsets, indexes and sizes are below this bound. -/
def wordBound : Nat := 0x10000000000000000

/-! ## Writing -/

namespace Fields

def toFields (f : Fields) : List (String × Json) :=
  [("attributes", .list .str f.attributes),
   ("name", .str f.name),
   ("second_name", .str f.secondName),
   ("type", .str f.typeText),
   ("variadic", .bool f.variadic),
   ("default_argument", .option .str f.defaultArgument),
   ("is_inout", .bool f.isInout),
   ("is_optional", .bool f.isOptional),
   ("preferred_name", .option .str f.preferredName),
   ("type_without_attributes", .str f.bareType),
   ("is_label_omitted", .bool f.isLabelOmitted)]

def ofJson? (j : Json) : Option Fields := do
  let attributes ← j.field? "attributes" (Json.list? Json.string?)
  let name ← j.field? "name" Json.string?
  let secondName ← j.field? "second_name" Json.string?
  let typeText ← j.field? "type" Json.string?
  let variadic ← j.field? "variadic" Json.bool?
  let defaultArgument ← j.optionalField? "default_argument" Json.string?
  let isInout ← j.field? "is_inout" Json.bool?
  let isOptional ← j.field? "is_optional" Json.bool?
  let preferredName ← j.optionalField? "preferred_name" Json.string?
  let bareType ← j.field? "type_without_attributes" Json.string?
  let isLabelOmitted ← j.field? "is_label_omitted" Json.bool?
  return { attributes, name, secondName, typeText, variadic, defaultArgument, isInout, isOptional,
           preferredName, bareType, isLabelOmitted }

end Fields

namespace ClosureTraits

def toFields (t : ClosureTraits) : List (String × Json) :=
  [("is_void_input", .bool t.isVoidInput),
   ("is_void_output", .bool t.isVoidOutput),
   ("is_escaping", .bool t.isEscaping),
   ("is_auto_escaping", .bool t.isAutoEscaping),
   ("is_async", .bool t.isAsync),
   ("is_throwing", .bool t.isThrowing),
   ("input_type", .str t.inputType),
   ("output_type", .str t.outputType),
   ("declaration_text", .str t.declarationText)]

def ofJson? (j : Json) : Option ClosureTraits := do
  let isVoidInput ← j.field? "is_void_input" Json.bool?
  let isVoidOutput ← j.field? "is_void_output" Json.bool?
  let isEscaping ← j.field? "is_escaping" Json.bool?
  let isAutoEscaping ← j.field? "is_auto_escaping" Json.bool?
  let isAsync ← j.field? "is_async" Json.bool?
  let isThrowing ← j.field? "is_throwing" Json.bool?
  let inputType ← j.field? "input_type" Json.string?
  let outputType ← j.field? "output_type" Json.string?
  let declarationText ← j.field? "declaration_text" Json.string?
  return { isVoidInput, isVoidOutput, isEscaping, isAutoEscaping, isAsync, isThrowing, inputType,
           outputType, declarationText }

end ClosureTraits

namespace Descriptor

mutual

/-- All of a descriptor but the name of its variant. -/
def payload : Descriptor → Json
  | standard f ps => .obj (f.toFields ++ [("parameters", .arr (entriesFrom 0 ps))])
  | tuple f args => .obj (f.toFields ++ [("arguments", .arr (entriesFrom 0 args))])
  | closure f is os t =>
    .obj (f.toFields ++ [("inputs", .arr (entriesFrom 0 is)), ("outputs", .arr (entriesFrom 0 os))] ++
      t.toFields)

/-- The entries of a list, with indexes from `index` on. -/
def entriesFrom (index : Nat) : List Descriptor → List Json
  | [] => []
  | d :: ds =>
    .obj [("kind", .str d.variant), ("index", .nat index), ("payload", d.payload)] ::
      entriesFrom (index + 1) ds

end

/-- A descriptor alone. -/
def toJson (d : Descriptor) : Json := .obj [("kind", .str d.variant), ("payload", d.payload)]

/-- A list of descriptors. -/
def listToJson (ds : List Descriptor) : Json := .arr (entriesFrom 0 ds)

end Descriptor

/-! ## Reading -/

/-- An entry of a list whose payload has not been read yet. -/
structure Entry where
  variant : String
  index : Nat
  payload : Json

namespace Entry

def ofJson? (j : Json) : Option Entry := do
  let variant ← j.field? "kind" Json.string?
  let index ← j.field? "index" (Json.natural? wordBound)
  let payload ← j.get? "payload"
  return ⟨variant, index, payload⟩

/-- The entries of a list in the order of their indexes. -/
def listOfJson? (j : Json) : Option (List Entry) :=
  (j.list? ofJson?).map fun entries => entries.mergeSort fun a b => a.index ≤ b.index

/-- The entries of a list that may be missing, which is then empty. -/
def fieldOfJson? (name : String) (j : Json) : Option (List Entry) :=
  match j.get? name with
  | none => some []
  | some list => listOfJson? list

theorem sizeOf_ofJson? {j : Json} {e : Entry} (h : ofJson? j = some e) :
    sizeOf e.payload < sizeOf j := by
  simp only [ofJson?, Option.bind_eq_bind, Option.bind_eq_some_iff, Option.pure_def] at h
  obtain ⟨_, _, _, _, p, hp, he⟩ := h
  cases he
  exact Json.sizeOf_lt_of_get? hp

theorem sizeOf_listOfJson? {j : Json} {entries : List Entry} {e : Entry}
    (h : listOfJson? j = some entries) (he : e ∈ entries) : sizeOf e.payload < sizeOf j := by
  obtain ⟨unsorted, hu, rfl⟩ := Option.map_eq_some_iff.mp h
  obtain ⟨item, hread, hsize⟩ := Json.exists_item_of_mem_list? hu (a := e) (by simpa using he)
  exact Nat.lt_trans (sizeOf_ofJson? hread) hsize

theorem sizeOf_fieldOfJson? {name : String} {j : Json} {entries : List Entry} {e : Entry}
    (h : fieldOfJson? name j = some entries) (he : e ∈ entries) :
    sizeOf e.payload < sizeOf j := by
  unfold fieldOfJson? at h
  split at h
  · cases h
    cases he
  · next list hlist =>
    exact Nat.lt_trans (sizeOf_listOfJson? h he) (Json.sizeOf_lt_of_get? hlist)

end Entry

namespace Descriptor

/-- The descriptor with a payload, by the name of its variant. -/
def ofPayload? (variant : String) (j : Json) : Option Descriptor :=
  match variant with
  | "standard" => do
    let fields ← Fields.ofJson? j
    match _h : Entry.fieldOfJson? "parameters" j with
    | none => none
    | some entries =>
      let parameters ← entries.attach.mapM fun ⟨e, _⟩ => ofPayload? e.variant e.payload
      return .standard fields parameters
  | "tuple" => do
    let fields ← Fields.ofJson? j
    match _h : Entry.fieldOfJson? "arguments" j with
    | none => none
    | some entries =>
      let arguments ← entries.attach.mapM fun ⟨e, _⟩ => ofPayload? e.variant e.payload
      return .tuple fields arguments
  | "closure" => do
    let fields ← Fields.ofJson? j
    let traits ← ClosureTraits.ofJson? j
    match _h : Entry.fieldOfJson? "inputs" j, _h' : Entry.fieldOfJson? "outputs" j with
    | some entries, some entries' =>
      let inputs ← entries.attach.mapM fun ⟨e, _⟩ => ofPayload? e.variant e.payload
      let outputs ← entries'.attach.mapM fun ⟨e, _⟩ => ofPayload? e.variant e.payload
      return .closure fields inputs outputs traits
    | _, _ => none
  | _ => none
termination_by sizeOf j
decreasing_by
  · exact Entry.sizeOf_fieldOfJson? _h ‹_›
  · exact Entry.sizeOf_fieldOfJson? _h ‹_›
  · exact Entry.sizeOf_fieldOfJson? _h ‹_›
  · exact Entry.sizeOf_fieldOfJson? _h' ‹_›

/-- The descriptor that a value stands for. -/
def ofJson? (j : Json) : Option Descriptor := do
  let variant ← j.field? "kind" Json.string?
  let payload ← j.get? "payload"
  ofPayload? variant payload

/-- The descriptors that a list of entries stands for, in the order of their indexes. -/
def listOfJson? (j : Json) : Option (List Descriptor) :=
  (Entry.listOfJson? j).bind (·.mapM fun e => ofPayload? e.variant e.payload)

end Descriptor

end SwiftOutline
