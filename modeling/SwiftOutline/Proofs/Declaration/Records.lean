import SwiftOutline.Declaration.Outline

/-!
# `Records` — one record of any sort, and outlines as lists of them

An outline holds the records of a list sort by sort. Changing the headers of an outline, or choosing
records by their headers, is changing or choosing in the list.
-/

namespace SwiftOutline

/-! ## One record -/

/-- The header with another owner and another span. -/
def Header.placed (owner : Option Owner) (span : Span) (h : Header) : Header :=
  { h with owner := owner, span := span }

namespace Declaration

/-- The header of a record. -/
def header : Declaration → Header
  | container r => r.header
  | function r => r.header
  | initializer r => r.header
  | deinitializer r => r.header
  | subscript r => r.header
  | binding r => r.header
  | typealias r => r.header
  | associatedType r => r.header
  | enumCase r => r.header
  | importing r => r.header
  | operator r => r.header
  | precedenceGroup r => r.header
  | conditional r => r.header

/-- The record with its header changed. -/
def mapHeader (f : Header → Header) : Declaration → Declaration
  | container r => container { r with header := f r.header }
  | function r => function { r with header := f r.header }
  | initializer r => initializer { r with header := f r.header }
  | deinitializer r => deinitializer { r with header := f r.header }
  | subscript r => subscript { r with header := f r.header }
  | binding r => binding { r with header := f r.header }
  | typealias r => typealias { r with header := f r.header }
  | associatedType r => associatedType { r with header := f r.header }
  | enumCase r => enumCase { r with header := f r.header }
  | importing r => importing { r with header := f r.header }
  | operator r => operator { r with header := f r.header }
  | precedenceGroup r => precedenceGroup { r with header := f r.header }
  | conditional r => conditional { r with header := f r.header }

@[simp]
theorem header_mapHeader (f : Header → Header) (d : Declaration) : (d.mapHeader f).header = f d.header := by
  cases d <;> rfl

@[simp]
theorem mapHeader_mapHeader (f f' : Header → Header) (d : Declaration) :
    (d.mapHeader f').mapHeader f = d.mapHeader (f ∘ f') := by
  cases d <;> rfl

theorem mapHeader_eq_const (f : Header → Header) (d : Declaration) :
    d.mapHeader f = d.mapHeader fun _ => f d.header := by
  cases d <;> rfl

/-- A change of headers counts only at the header of the record. -/
theorem mapHeader_congr {f f' : Header → Header} {d : Declaration} (h : f d.header = f' d.header) :
    d.mapHeader f = d.mapHeader f' := by
  rw [mapHeader_eq_const f, h, ← mapHeader_eq_const f']

end Declaration

/-! ## Outlines -/

/-- The header with the places in a text where it starts and ends. -/
def Header.located (text : String) (h : Header) : Header :=
  { h with
    startLocation := (LineIndex.ofSource text).location h.span.start
    endLocation := (LineIndex.ofSource text).location h.span.stop }

/-- The header with the locations of its ends in a source, or with empty ones where there is none. -/
def Header.locatedIn (source : Option String) (h : Header) : Header :=
  source.elim { h with startLocation := .empty, endLocation := .empty } h.located

namespace Outline

/-- The records whose headers pass a test, sort by sort and each in order. -/
def filterHeaders (keep : Header → Bool) (o : Outline) : Outline where
  types := o.types.filter fun r => keep r.header
  functions := o.functions.filter fun r => keep r.header
  initializers := o.initializers.filter fun r => keep r.header
  deinitializers := o.deinitializers.filter fun r => keep r.header
  subscripts := o.subscripts.filter fun r => keep r.header
  bindings := o.bindings.filter fun r => keep r.header
  typealiases := o.typealiases.filter fun r => keep r.header
  associatedTypes := o.associatedTypes.filter fun r => keep r.header
  enumCases := o.enumCases.filter fun r => keep r.header
  imports := o.imports.filter fun r => keep r.header
  operators := o.operators.filter fun r => keep r.header
  precedenceGroups := o.precedenceGroups.filter fun r => keep r.header
  conditionalBlocks := o.conditionalBlocks.filter fun r => keep r.header

theorem locate_some (text : String) (o : Outline) :
    o.locate (some text) = o.mapHeaders (Header.located text) :=
  rfl

theorem locate_eq_mapHeaders (source : Option String) (o : Outline) :
    o.locate source = o.mapHeaders (Header.locatedIn source) := by
  cases source <;> rfl

/-- One sort of record under a change of headers. -/
theorem filterMap_mapHeader {α : Type} {f : Header → Header} {pick : Declaration → Option α} {change : α → α}
    (h : ∀ d, pick (d.mapHeader f) = (pick d).map change) (ds : List Declaration) :
    (ds.map (Declaration.mapHeader f)).filterMap pick = (ds.filterMap pick).map change := by
  rw [List.filterMap_map, List.map_filterMap]
  congr 1
  funext d
  exact h d

/-- One sort of record under a choice by headers. -/
theorem filterMap_filter_header {α : Type} {keep : Header → Bool} {pick : Declaration → Option α}
    {test : α → Bool} (h : ∀ d r, pick d = some r → test r = keep d.header) (ds : List Declaration) :
    (ds.filter fun d => keep d.header).filterMap pick = (ds.filterMap pick).filter test := by
  rw [List.filterMap_filter, List.filter_filterMap]
  congr 1
  funext d
  cases hpick : pick d with
  | none => cases keep d.header <;> rfl
  | some r =>
    rw [Option.filter_some, h d r hpick]

theorem mapHeaders_ofDeclarations (f : Header → Header) (ds : List Declaration) :
    (ofDeclarations ds).mapHeaders f = ofDeclarations (ds.map (Declaration.mapHeader f)) := by
  unfold mapHeaders ofDeclarations
  congr 1
  all_goals
    refine (filterMap_mapHeader ?_ ds).symm
    intro d
    cases d <;> rfl

theorem filterHeaders_ofDeclarations (keep : Header → Bool) (ds : List Declaration) :
    (ofDeclarations ds).filterHeaders keep = ofDeclarations (ds.filter fun d => keep d.header) := by
  unfold filterHeaders ofDeclarations
  congr 1
  all_goals
    refine (filterMap_filter_header ?_ ds).symm
    intro d r hr
    cases d <;> cases hr
    rfl

/-- What the records of one sort show is shown by records of the list. -/
theorem exists_of_mem_filterMap {α β : Type} {pick : Declaration → Option α} {shown : Declaration → List β}
    {list : α → List β} {x : β} {ds : List Declaration} (hpick : ∀ r a, pick r = some a → shown r = list a)
    (h : x ∈ (ds.filterMap pick).flatMap list) : ∃ r ∈ ds, x ∈ shown r := by
  obtain ⟨a, ha, hx⟩ := List.mem_flatMap.mp h
  obtain ⟨r, hr, hra⟩ := List.mem_filterMap.mp ha
  exact ⟨r, hr, hpick r a hra ▸ hx⟩

theorem mem_types_ofDeclarations {ds : List Declaration} {c : ContainerRecord} :
    c ∈ (ofDeclarations ds).types ↔ Declaration.container c ∈ ds := by
  rw [ofDeclarations, List.mem_filterMap]
  constructor
  · rintro ⟨d, hd, hc⟩
    cases d <;> cases hc
    exact hd
  · intro hc
    exact ⟨_, hc, rfl⟩

end Outline

end SwiftOutline
