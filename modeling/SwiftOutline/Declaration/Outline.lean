import SwiftOutline.Declaration.Basic

/-!
# The outline of a file

All records of a file, one list for each sort, each in source order.
-/

namespace SwiftOutline

/-- All records of a file. -/
structure Outline where
  types : List ContainerRecord := []
  functions : List FunctionRecord := []
  initializers : List InitializerRecord := []
  deinitializers : List DeinitializerRecord := []
  subscripts : List SubscriptRecord := []
  bindings : List VariableRecord := []
  typealiases : List TypealiasRecord := []
  associatedTypes : List AssociatedTypeRecord := []
  enumCases : List EnumCaseRecord := []
  imports : List ImportRecord := []
  operators : List OperatorRecord := []
  precedenceGroups : List PrecedenceGroupRecord := []
  conditionalBlocks : List ConditionalRecord := []
deriving DecidableEq, Inhabited

namespace Declaration

def toContainer? : Declaration → Option ContainerRecord
  | container r => some r
  | _ => none

def toFunction? : Declaration → Option FunctionRecord
  | function r => some r
  | _ => none

def toInitializer? : Declaration → Option InitializerRecord
  | initializer r => some r
  | _ => none

def toDeinitializer? : Declaration → Option DeinitializerRecord
  | deinitializer r => some r
  | _ => none

def toSubscript? : Declaration → Option SubscriptRecord
  | subscript r => some r
  | _ => none

def toBinding? : Declaration → Option VariableRecord
  | binding r => some r
  | _ => none

def toTypealias? : Declaration → Option TypealiasRecord
  | typealias r => some r
  | _ => none

def toAssociatedType? : Declaration → Option AssociatedTypeRecord
  | associatedType r => some r
  | _ => none

def toEnumCase? : Declaration → Option EnumCaseRecord
  | enumCase r => some r
  | _ => none

def toImporting? : Declaration → Option ImportRecord
  | importing r => some r
  | _ => none

def toOperator? : Declaration → Option OperatorRecord
  | operator r => some r
  | _ => none

def toPrecedenceGroup? : Declaration → Option PrecedenceGroupRecord
  | precedenceGroup r => some r
  | _ => none

def toConditional? : Declaration → Option ConditionalRecord
  | conditional r => some r
  | _ => none

end Declaration

namespace Outline

/-- The records of a list, each sort in the order of the list. -/
def ofDeclarations (ds : List Declaration) : Outline where
  types := ds.filterMap Declaration.toContainer?
  functions := ds.filterMap Declaration.toFunction?
  initializers := ds.filterMap Declaration.toInitializer?
  deinitializers := ds.filterMap Declaration.toDeinitializer?
  subscripts := ds.filterMap Declaration.toSubscript?
  bindings := ds.filterMap Declaration.toBinding?
  typealiases := ds.filterMap Declaration.toTypealias?
  associatedTypes := ds.filterMap Declaration.toAssociatedType?
  enumCases := ds.filterMap Declaration.toEnumCase?
  imports := ds.filterMap Declaration.toImporting?
  operators := ds.filterMap Declaration.toOperator?
  precedenceGroups := ds.filterMap Declaration.toPrecedenceGroup?
  conditionalBlocks := ds.filterMap Declaration.toConditional?

/-- The headers of the records of a sort, in source order. -/
def headers (o : Outline) : DeclarationKind → List Header
  | .container => o.types.map (·.header)
  | .function => o.functions.map (·.header)
  | .initializer => o.initializers.map (·.header)
  | .deinitializer => o.deinitializers.map (·.header)
  | .subscript => o.subscripts.map (·.header)
  | .binding => o.bindings.map (·.header)
  | .typealias => o.typealiases.map (·.header)
  | .associatedType => o.associatedTypes.map (·.header)
  | .enumCase => o.enumCases.map (·.header)
  | .importing => o.imports.map (·.header)
  | .operator => o.operators.map (·.header)
  | .precedenceGroup => o.precedenceGroups.map (·.header)
  | .conditional => o.conditionalBlocks.map (·.header)

/-- The headers of all records, sort by sort. -/
def allHeaders (o : Outline) : List Header := DeclarationKind.all.flatMap o.headers

/-- The number of records of a sort. -/
def count (o : Outline) (k : DeclarationKind) : Nat := (o.headers k).length

/-- The number of all records. -/
def size (o : Outline) : Nat := o.allHeaders.length

def isEmpty (o : Outline) : Bool := o.size == 0

/-- The containers that records belong to, each once, in the order in which they come up. -/
def owners (o : Outline) : List Owner :=
  (o.allHeaders.filterMap (·.owner)).eraseDupsBy Owner.isSame

/-- Changes every header, sort by sort and each in source order. -/
def mapHeadersM {m : Type → Type} [Monad m] (f : Header → m Header) (o : Outline) :
    m Outline := do
  let types ← o.types.mapM fun r => return { r with header := ← f r.header }
  let functions ← o.functions.mapM fun r => return { r with header := ← f r.header }
  let initializers ← o.initializers.mapM fun r => return { r with header := ← f r.header }
  let deinitializers ← o.deinitializers.mapM fun r => return { r with header := ← f r.header }
  let subscripts ← o.subscripts.mapM fun r => return { r with header := ← f r.header }
  let bindings ← o.bindings.mapM fun r => return { r with header := ← f r.header }
  let typealiases ← o.typealiases.mapM fun r => return { r with header := ← f r.header }
  let associatedTypes ← o.associatedTypes.mapM fun r => return { r with header := ← f r.header }
  let enumCases ← o.enumCases.mapM fun r => return { r with header := ← f r.header }
  let imports ← o.imports.mapM fun r => return { r with header := ← f r.header }
  let operators ← o.operators.mapM fun r => return { r with header := ← f r.header }
  let precedenceGroups ← o.precedenceGroups.mapM fun r =>
    return { r with header := ← f r.header }
  let conditionalBlocks ← o.conditionalBlocks.mapM fun r =>
    return { r with header := ← f r.header }
  return { types, functions, initializers, deinitializers, subscripts, bindings, typealiases,
           associatedTypes, enumCases, imports, operators, precedenceGroups, conditionalBlocks }

/-- Changes every header in the same way. -/
def mapHeaders (f : Header → Header) (o : Outline) : Outline where
  types := o.types.map fun r => { r with header := f r.header }
  functions := o.functions.map fun r => { r with header := f r.header }
  initializers := o.initializers.map fun r => { r with header := f r.header }
  deinitializers := o.deinitializers.map fun r => { r with header := f r.header }
  subscripts := o.subscripts.map fun r => { r with header := f r.header }
  bindings := o.bindings.map fun r => { r with header := f r.header }
  typealiases := o.typealiases.map fun r => { r with header := f r.header }
  associatedTypes := o.associatedTypes.map fun r => { r with header := f r.header }
  enumCases := o.enumCases.map fun r => { r with header := f r.header }
  imports := o.imports.map fun r => { r with header := f r.header }
  operators := o.operators.map fun r => { r with header := f r.header }
  precedenceGroups := o.precedenceGroups.map fun r => { r with header := f r.header }
  conditionalBlocks := o.conditionalBlocks.map fun r => { r with header := f r.header }

/-- Changing every header changes the headers of each sort and nothing else about them. -/
theorem headers_mapHeaders (f : Header → Header) (o : Outline) (k : DeclarationKind) :
    (o.mapHeaders f).headers k = (o.headers k).map f := by
  cases k <;> simp [mapHeaders, headers, Function.comp_def]

/-- Fills in where every record starts and ends. Without a source the locations are empty. -/
def locate (source : Option String) (o : Outline) : Outline :=
  match source with
  | none => o.mapHeaders fun h => { h with startLocation := .empty, endLocation := .empty }
  | some text =>
    let index := LineIndex.ofSource text
    o.mapHeaders fun h =>
      { h with
        startLocation := index.location h.span.start
        endLocation := index.location h.span.stop }

end Outline

end SwiftOutline
