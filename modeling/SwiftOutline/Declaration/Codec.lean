import SwiftOutline.Declaration.Outline
import SwiftOutline.Descriptor.Codec
import SwiftOutline.Json.Printer
import SwiftOutline.Json.Reader

/-!
# Outlines as JSON

A record is one object in which the fields of its header come first. Fields that are not known are
passed over in reading, and a missing text is `null` or left out.
-/

namespace SwiftOutline

/-- Lines and columns are below this bound. -/
def lineBound : Nat := 0x100000000

/-! ## Headers -/

namespace Attribute

def toJson (a : Attribute) : Json :=
  .obj [("name", .str a.name), ("arguments", .option .str a.arguments)]

def ofJson? (j : Json) : Option Attribute := do
  let name ← j.field? "name" Json.string?
  let arguments ← j.optionalField? "arguments" Json.string?
  return { name, arguments }

end Attribute

namespace Modifier

def toJson (m : Modifier) : Json :=
  .obj [("name", .str m.name), ("detail", .option .str m.detail)]

def ofJson? (j : Json) : Option Modifier := do
  let name ← j.field? "name" Json.string?
  let detail ← j.optionalField? "detail" Json.string?
  return { name, detail }

end Modifier

namespace GenericParameter

def toJson (p : GenericParameter) : Json :=
  .obj [("name", .str p.name), ("constraint", .option .str p.constraint)]

def ofJson? (j : Json) : Option GenericParameter := do
  let name ← j.field? "name" Json.string?
  let constraint ← j.optionalField? "constraint" Json.string?
  return { name, constraint }

end GenericParameter

namespace Span

def toJson (s : Span) : Json := .obj [("start", .nat s.start), ("end", .nat s.stop)]

/-- Reads a span as it is, also one that ends before it starts. -/
def ofJson? (j : Json) : Option Span := do
  let start ← j.field? "start" (Json.natural? wordBound)
  let stop ← j.field? "end" (Json.natural? wordBound)
  return { start, stop }

end Span

namespace Location

def toJson (l : Location) : Json :=
  .obj [("line", .option .nat l.line), ("column", .option .nat l.column), ("offset", .nat l.offset)]

def ofJson? (j : Json) : Option Location := do
  let line ← j.optionalField? "line" (Json.natural? lineBound)
  let column ← j.optionalField? "column" (Json.natural? lineBound)
  let offset ← j.field? "offset" (Json.natural? wordBound)
  return { line, column, offset }

end Location

namespace Owner

def toJson (o : Owner) : Json :=
  .obj
    [("attributes", .list Attribute.toJson o.attributes),
     ("modifiers", .list Modifier.toJson o.modifiers),
     ("keyword", .str o.keyword),
     ("name", .str o.name)]

def ofJson? (j : Json) : Option Owner := do
  let attributes ← j.field? "attributes" (Json.list? Attribute.ofJson?)
  let modifiers ← j.field? "modifiers" (Json.list? Modifier.ofJson?)
  let keyword ← j.field? "keyword" Json.string?
  let name ← j.field? "name" Json.string?
  return { attributes, modifiers, keyword, name }

end Owner

namespace Header

def toFields (h : Header) : List (String × Json) :=
  [("attributes", .list Attribute.toJson h.attributes),
   ("modifiers", .list Modifier.toJson h.modifiers),
   ("keyword", .str h.keyword),
   ("name", .str h.name),
   ("owner", .option Owner.toJson h.owner),
   ("span", h.span.toJson),
   ("start_location", h.startLocation.toJson),
   ("end_location", h.endLocation.toJson)]

def ofJson? (j : Json) : Option Header := do
  let attributes ← j.field? "attributes" (Json.list? Attribute.ofJson?)
  let modifiers ← j.field? "modifiers" (Json.list? Modifier.ofJson?)
  let keyword ← j.field? "keyword" Json.string?
  let name ← j.field? "name" Json.string?
  let owner ← j.optionalField? "owner" Owner.ofJson?
  let span ← j.field? "span" Span.ofJson?
  let startLocation ← j.field? "start_location" Location.ofJson?
  let endLocation ← j.field? "end_location" Location.ofJson?
  return { attributes, modifiers, keyword, name, owner, span, startLocation, endLocation }

end Header

/-! ## Records -/

namespace ContainerRecord

def toJson (r : ContainerRecord) : Json :=
  .obj (r.header.toFields ++
    [("generic_parameters", .list GenericParameter.toJson r.genericParameters),
     ("inherited_types", .list .str r.inheritedTypes),
     ("where_clause", .option .str r.whereClause)])

def ofJson? (j : Json) : Option ContainerRecord := do
  let header ← Header.ofJson? j
  let genericParameters ← j.field? "generic_parameters" (Json.list? GenericParameter.ofJson?)
  let inheritedTypes ← j.field? "inherited_types" (Json.list? Json.string?)
  let whereClause ← j.optionalField? "where_clause" Json.string?
  return { header, genericParameters, inheritedTypes, whereClause }

end ContainerRecord

namespace FunctionRecord

def toJson (r : FunctionRecord) : Json :=
  .obj (r.header.toFields ++
    [("generic_parameters", .list GenericParameter.toJson r.genericParameters),
     ("parameters", Descriptor.listToJson r.parameters),
     ("return_type", .option .str r.returnType),
     ("returns", Descriptor.listToJson r.returns),
     ("is_void_return", .bool r.isVoidReturn),
     ("is_async", .bool r.isAsync),
     ("is_throwing", .bool r.isThrowing),
     ("where_clause", .option .str r.whereClause),
     ("has_body", .bool r.hasBody)])

def ofJson? (j : Json) : Option FunctionRecord := do
  let header ← Header.ofJson? j
  let genericParameters ← j.field? "generic_parameters" (Json.list? GenericParameter.ofJson?)
  let parameters ← j.field? "parameters" Descriptor.listOfJson?
  let returnType ← j.optionalField? "return_type" Json.string?
  let returns ← j.field? "returns" Descriptor.listOfJson?
  let isVoidReturn ← j.field? "is_void_return" Json.bool?
  let isAsync ← j.field? "is_async" Json.bool?
  let isThrowing ← j.field? "is_throwing" Json.bool?
  let whereClause ← j.optionalField? "where_clause" Json.string?
  let hasBody ← j.field? "has_body" Json.bool?
  return { header, genericParameters, parameters, returnType, returns, isVoidReturn, isAsync,
           isThrowing, whereClause, hasBody }

end FunctionRecord

namespace InitializerRecord

def toJson (r : InitializerRecord) : Json :=
  .obj (r.header.toFields ++
    [("is_failable", .bool r.isFailable),
     ("generic_parameters", .list GenericParameter.toJson r.genericParameters),
     ("parameters", Descriptor.listToJson r.parameters),
     ("is_async", .bool r.isAsync),
     ("is_throwing", .bool r.isThrowing),
     ("where_clause", .option .str r.whereClause),
     ("has_body", .bool r.hasBody)])

def ofJson? (j : Json) : Option InitializerRecord := do
  let header ← Header.ofJson? j
  let isFailable ← j.field? "is_failable" Json.bool?
  let genericParameters ← j.field? "generic_parameters" (Json.list? GenericParameter.ofJson?)
  let parameters ← j.field? "parameters" Descriptor.listOfJson?
  let isAsync ← j.field? "is_async" Json.bool?
  let isThrowing ← j.field? "is_throwing" Json.bool?
  let whereClause ← j.optionalField? "where_clause" Json.string?
  let hasBody ← j.field? "has_body" Json.bool?
  return { header, isFailable, genericParameters, parameters, isAsync, isThrowing, whereClause,
           hasBody }

end InitializerRecord

namespace DeinitializerRecord

def toJson (r : DeinitializerRecord) : Json :=
  .obj (r.header.toFields ++
    [("has_body", .bool r.hasBody)])

def ofJson? (j : Json) : Option DeinitializerRecord := do
  let header ← Header.ofJson? j
  let hasBody ← j.field? "has_body" Json.bool?
  return { header, hasBody }

end DeinitializerRecord

namespace SubscriptRecord

def toJson (r : SubscriptRecord) : Json :=
  .obj (r.header.toFields ++
    [("generic_parameters", .list GenericParameter.toJson r.genericParameters),
     ("parameters", Descriptor.listToJson r.parameters),
     ("return_type", .option .str r.returnType),
     ("returns", Descriptor.listToJson r.returns),
     ("accessors", .list .str r.accessors)])

def ofJson? (j : Json) : Option SubscriptRecord := do
  let header ← Header.ofJson? j
  let genericParameters ← j.field? "generic_parameters" (Json.list? GenericParameter.ofJson?)
  let parameters ← j.field? "parameters" Descriptor.listOfJson?
  let returnType ← j.optionalField? "return_type" Json.string?
  let returns ← j.field? "returns" Descriptor.listOfJson?
  let accessors ← j.field? "accessors" (Json.list? Json.string?)
  return { header, genericParameters, parameters, returnType, returns, accessors }

end SubscriptRecord

namespace VariableRecord

def toJson (r : VariableRecord) : Json :=
  .obj (r.header.toFields ++
    [("type_annotation", .option Descriptor.toJson r.declaredType),
     ("initializer", .option .str r.initializer),
     ("accessors", .list .str r.accessors),
     ("is_computed", .bool r.isComputed)])

def ofJson? (j : Json) : Option VariableRecord := do
  let header ← Header.ofJson? j
  let declaredType ← j.optionalField? "type_annotation" Descriptor.ofJson?
  let initializer ← j.optionalField? "initializer" Json.string?
  let accessors ← j.field? "accessors" (Json.list? Json.string?)
  let isComputed ← j.field? "is_computed" Json.bool?
  return { header, declaredType, initializer, accessors, isComputed }

end VariableRecord

namespace TypealiasRecord

def toJson (r : TypealiasRecord) : Json :=
  .obj (r.header.toFields ++
    [("generic_parameters", .list GenericParameter.toJson r.genericParameters),
     ("aliased", r.aliased.toJson)])

def ofJson? (j : Json) : Option TypealiasRecord := do
  let header ← Header.ofJson? j
  let genericParameters ← j.field? "generic_parameters" (Json.list? GenericParameter.ofJson?)
  let aliased ← j.field? "aliased" Descriptor.ofJson?
  return { header, genericParameters, aliased }

end TypealiasRecord

namespace AssociatedTypeRecord

def toJson (r : AssociatedTypeRecord) : Json :=
  .obj (r.header.toFields ++
    [("inherited_types", .list .str r.inheritedTypes),
     ("default_type", .option .str r.defaultType)])

def ofJson? (j : Json) : Option AssociatedTypeRecord := do
  let header ← Header.ofJson? j
  let inheritedTypes ← j.field? "inherited_types" (Json.list? Json.string?)
  let defaultType ← j.optionalField? "default_type" Json.string?
  return { header, inheritedTypes, defaultType }

end AssociatedTypeRecord

namespace EnumCaseRecord

def toJson (r : EnumCaseRecord) : Json :=
  .obj (r.header.toFields ++
    [("associated_values", Descriptor.listToJson r.associatedValues),
     ("raw_value", .option .str r.rawValue)])

def ofJson? (j : Json) : Option EnumCaseRecord := do
  let header ← Header.ofJson? j
  let associatedValues ← j.field? "associated_values" Descriptor.listOfJson?
  let rawValue ← j.optionalField? "raw_value" Json.string?
  return { header, associatedValues, rawValue }

end EnumCaseRecord

namespace ImportRecord

def toJson (r : ImportRecord) : Json :=
  .obj (r.header.toFields ++
    [("import_kind", .option .str r.importKind),
     ("path", .str r.path)])

def ofJson? (j : Json) : Option ImportRecord := do
  let header ← Header.ofJson? j
  let importKind ← j.optionalField? "import_kind" Json.string?
  let path ← j.field? "path" Json.string?
  return { header, importKind, path }

end ImportRecord

namespace OperatorRecord

def toJson (r : OperatorRecord) : Json :=
  .obj (r.header.toFields ++
    [("fixity", .option .str r.fixity),
     ("precedence_group", .option .str r.precedenceGroup)])

def ofJson? (j : Json) : Option OperatorRecord := do
  let header ← Header.ofJson? j
  let fixity ← j.optionalField? "fixity" Json.string?
  let precedenceGroup ← j.optionalField? "precedence_group" Json.string?
  return { header, fixity, precedenceGroup }

end OperatorRecord

namespace PrecedenceGroupRecord

def toJson (r : PrecedenceGroupRecord) : Json :=
  .obj (r.header.toFields ++
    [("body", .str r.body)])

def ofJson? (j : Json) : Option PrecedenceGroupRecord := do
  let header ← Header.ofJson? j
  let body ← j.field? "body" Json.string?
  return { header, body }

end PrecedenceGroupRecord

namespace ConditionalRecord

def toJson (r : ConditionalRecord) : Json :=
  .obj (r.header.toFields ++
    [("clauses", .list .str r.clauses)])

def ofJson? (j : Json) : Option ConditionalRecord := do
  let header ← Header.ofJson? j
  let clauses ← j.field? "clauses" (Json.list? Json.string?)
  return { header, clauses }

end ConditionalRecord

/-! ## Outlines -/

namespace Outline

def toJson (o : Outline) : Json :=
  .obj
    [("types", .list ContainerRecord.toJson o.types),
     ("functions", .list FunctionRecord.toJson o.functions),
     ("initializers", .list InitializerRecord.toJson o.initializers),
     ("deinitializers", .list DeinitializerRecord.toJson o.deinitializers),
     ("subscripts", .list SubscriptRecord.toJson o.subscripts),
     ("variables", .list VariableRecord.toJson o.bindings),
     ("typealiases", .list TypealiasRecord.toJson o.typealiases),
     ("associated_types", .list AssociatedTypeRecord.toJson o.associatedTypes),
     ("enum_cases", .list EnumCaseRecord.toJson o.enumCases),
     ("imports", .list ImportRecord.toJson o.imports),
     ("operators", .list OperatorRecord.toJson o.operators),
     ("precedence_groups", .list PrecedenceGroupRecord.toJson o.precedenceGroups),
     ("conditional_blocks", .list ConditionalRecord.toJson o.conditionalBlocks)]

/-- The outline that a value stands for. All lists must be there. -/
def ofJson? (j : Json) : Option Outline := do
  let types ← j.field? "types" (Json.list? ContainerRecord.ofJson?)
  let functions ← j.field? "functions" (Json.list? FunctionRecord.ofJson?)
  let initializers ← j.field? "initializers" (Json.list? InitializerRecord.ofJson?)
  let deinitializers ← j.field? "deinitializers" (Json.list? DeinitializerRecord.ofJson?)
  let subscripts ← j.field? "subscripts" (Json.list? SubscriptRecord.ofJson?)
  let bindings ← j.field? "variables" (Json.list? VariableRecord.ofJson?)
  let typealiases ← j.field? "typealiases" (Json.list? TypealiasRecord.ofJson?)
  let associatedTypes ← j.field? "associated_types" (Json.list? AssociatedTypeRecord.ofJson?)
  let enumCases ← j.field? "enum_cases" (Json.list? EnumCaseRecord.ofJson?)
  let imports ← j.field? "imports" (Json.list? ImportRecord.ofJson?)
  let operators ← j.field? "operators" (Json.list? OperatorRecord.ofJson?)
  let precedenceGroups ← j.field? "precedence_groups" (Json.list? PrecedenceGroupRecord.ofJson?)
  let conditionalBlocks ← j.field? "conditional_blocks" (Json.list? ConditionalRecord.ofJson?)
  return { types, functions, initializers, deinitializers, subscripts, bindings, typealiases,
           associatedTypes, enumCases, imports, operators, precedenceGroups, conditionalBlocks }

/-- The outline as JSON text on one line. -/
def toText (o : Outline) : String := o.toJson.compact

/-- The outline that JSON text stands for. -/
def ofText? (text : String) : Option Outline := (Json.parse? text).bind ofJson?

end Outline

end SwiftOutline
