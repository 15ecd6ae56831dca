import SwiftOutline.Declaration.Codec
import SwiftOutline.Proofs.Descriptor.Entries

/-!
# `RoundTrip` — outlines are read back as they were written

Records are written as one object, the fields of the header first. No two fields of a record have the
same name, so each one is found again. Numbers are read back if they are in the range that the reader
accepts, and lists of descriptors if their entries can be numbered. Both hold of every outline in memory.
-/

namespace SwiftOutline

open Descriptor

/-! ## Parts of headers -/

theorem Attribute.ofJson?_toJson (a : Attribute) : ofJson? a.toJson = some a := by
  simp [ofJson?, toJson]

theorem Modifier.ofJson?_toJson (m : Modifier) : ofJson? m.toJson = some m := by
  simp [ofJson?, toJson]

theorem GenericParameter.ofJson?_toJson (p : GenericParameter) : ofJson? p.toJson = some p := by
  simp [ofJson?, toJson]

@[simp] theorem list?_attributes (as : List Attribute) :
    (Json.list Attribute.toJson as).list? Attribute.ofJson? = some as :=
  Json.list?_list fun a _ => a.ofJson?_toJson

@[simp] theorem list?_modifiers (ms : List Modifier) :
    (Json.list Modifier.toJson ms).list? Modifier.ofJson? = some ms :=
  Json.list?_list fun m _ => m.ofJson?_toJson

@[simp] theorem list?_genericParameters (ps : List GenericParameter) :
    (Json.list GenericParameter.toJson ps).list? GenericParameter.ofJson? = some ps :=
  Json.list?_list fun p _ => p.ofJson?_toJson

namespace Span

/-- Both ends are offsets that the reader accepts. -/
def Fits (s : Span) : Prop := s.start < wordBound ∧ s.stop < wordBound

theorem ofJson?_toJson {s : Span} (h : s.Fits) : ofJson? s.toJson = some s := by
  simp [ofJson?, toJson, Json.natural?_nat h.1, Json.natural?_nat h.2]

end Span

namespace Location

/-- Line, column and offset are numbers that the reader accepts. -/
structure Fits (l : Location) : Prop where
  line : ∀ n ∈ l.line, n < lineBound
  column : ∀ n ∈ l.column, n < lineBound
  offset : l.offset < wordBound

theorem optionalField?_nat {name : String} {fields : List (String × Json)} {o : Option Nat} {bound : Nat}
    (h : ∀ n ∈ o, n < bound) :
    (Json.obj ((name, .option .nat o) :: fields)).optionalField? name (Json.natural? bound) = some o := by
  apply Json.optionalField?_cons_self
  intro n hn
  exact ⟨Json.natural?_nat (h n hn), by simp [Json.nat]⟩

theorem ofJson?_toJson {l : Location} (h : l.Fits) : ofJson? l.toJson = some l := by
  simp [ofJson?, toJson, optionalField?_nat h.line, optionalField?_nat h.column, Json.natural?_nat h.offset]

end Location

/-- An owner is read back with its attributes and modifiers. -/
theorem Owner.ofJson?_toJson (o : Owner) : ofJson? o.toJson = some o := by
  simp [ofJson?, toJson]

namespace Header

/-- Span and locations are in range. -/
structure Fits (h : Header) : Prop where
  span : h.span.Fits
  startLocation : h.startLocation.Fits
  endLocation : h.endLocation.Fits

/-- The header of a record is read back, whatever other fields follow it. -/
theorem ofJson?_toFields {h : Header} (hfit : h.Fits) (rest : List (String × Json)) :
    ofJson? (.obj (h.toFields ++ rest)) = some h := by
  have howner : ∀ o ∈ h.owner, Owner.ofJson? o.toJson = some o ∧ o.toJson ≠ .null := by
    intro o _
    exact ⟨o.ofJson?_toJson, by simp [Owner.toJson]⟩
  simp [ofJson?, toFields, Json.optionalField?_cons_self howner, Span.ofJson?_toJson hfit.span,
    Location.ofJson?_toJson hfit.startLocation, Location.ofJson?_toJson hfit.endLocation]

/-- The names in the header, which `Json.field?_append` passes over. -/
@[simp] theorem map_fst_toFields (h : Header) :
    h.toFields.map Prod.fst =
      ["attributes", "modifiers", "keyword", "name", "owner", "span", "start_location", "end_location"] :=
  rfl

end Header

/-! ## Records -/

theorem ContainerRecord.ofJson?_toJson (r : ContainerRecord) (h : r.header.Fits) :
    ofJson? r.toJson = some r := by
  simp [ofJson?, toJson, Header.ofJson?_toFields h]

theorem FunctionRecord.ofJson?_toJson (r : FunctionRecord) (h : r.header.Fits)
    (hparameters : ListFits r.parameters) (hreturns : ListFits r.returns) :
    ofJson? r.toJson = some r := by
  simp [ofJson?, toJson, Header.ofJson?_toFields h, listOfJson?_listToJson hparameters,
    listOfJson?_listToJson hreturns]

theorem InitializerRecord.ofJson?_toJson (r : InitializerRecord) (h : r.header.Fits)
    (hparameters : ListFits r.parameters) : ofJson? r.toJson = some r := by
  simp [ofJson?, toJson, Header.ofJson?_toFields h, listOfJson?_listToJson hparameters]

theorem DeinitializerRecord.ofJson?_toJson (r : DeinitializerRecord) (h : r.header.Fits) :
    ofJson? r.toJson = some r := by
  simp [ofJson?, toJson, Header.ofJson?_toFields h]

theorem SubscriptRecord.ofJson?_toJson (r : SubscriptRecord) (h : r.header.Fits)
    (hparameters : ListFits r.parameters) (hreturns : ListFits r.returns) :
    ofJson? r.toJson = some r := by
  simp [ofJson?, toJson, Header.ofJson?_toFields h, listOfJson?_listToJson hparameters,
    listOfJson?_listToJson hreturns]

theorem VariableRecord.ofJson?_toJson (r : VariableRecord) (h : r.header.Fits)
    (htype : ∀ d ∈ r.declaredType, d.Fits) : ofJson? r.toJson = some r := by
  have hread : ∀ d ∈ r.declaredType, Descriptor.ofJson? d.toJson = some d ∧ d.toJson ≠ .null := by
    intro d hd
    exact ⟨Descriptor.ofJson?_toJson (htype d hd), by simp [Descriptor.toJson]⟩
  simp [ofJson?, toJson, Header.ofJson?_toFields h, Json.optionalField?_cons_self hread]

theorem TypealiasRecord.ofJson?_toJson (r : TypealiasRecord) (h : r.header.Fits) (haliased : r.aliased.Fits) :
    ofJson? r.toJson = some r := by
  simp [ofJson?, toJson, Header.ofJson?_toFields h, Descriptor.ofJson?_toJson haliased]

theorem AssociatedTypeRecord.ofJson?_toJson (r : AssociatedTypeRecord) (h : r.header.Fits) :
    ofJson? r.toJson = some r := by
  simp [ofJson?, toJson, Header.ofJson?_toFields h]

theorem EnumCaseRecord.ofJson?_toJson (r : EnumCaseRecord) (h : r.header.Fits)
    (hvalues : ListFits r.associatedValues) : ofJson? r.toJson = some r := by
  simp [ofJson?, toJson, Header.ofJson?_toFields h, listOfJson?_listToJson hvalues]

theorem ImportRecord.ofJson?_toJson (r : ImportRecord) (h : r.header.Fits) : ofJson? r.toJson = some r := by
  simp [ofJson?, toJson, Header.ofJson?_toFields h]

theorem OperatorRecord.ofJson?_toJson (r : OperatorRecord) (h : r.header.Fits) :
    ofJson? r.toJson = some r := by
  simp [ofJson?, toJson, Header.ofJson?_toFields h]

theorem PrecedenceGroupRecord.ofJson?_toJson (r : PrecedenceGroupRecord) (h : r.header.Fits) :
    ofJson? r.toJson = some r := by
  simp [ofJson?, toJson, Header.ofJson?_toFields h]

theorem ConditionalRecord.ofJson?_toJson (r : ConditionalRecord) (h : r.header.Fits) :
    ofJson? r.toJson = some r := by
  simp [ofJson?, toJson, Header.ofJson?_toFields h]

/-! ## Outlines -/

namespace Outline

/-- All numbers and lists of the outline are in range, as they are in memory. -/
structure Fits (o : Outline) : Prop where
  headers : ∀ h ∈ o.allHeaders, h.Fits
  functions : ∀ r ∈ o.functions, ListFits r.parameters ∧ ListFits r.returns
  initializers : ∀ r ∈ o.initializers, ListFits r.parameters
  subscripts : ∀ r ∈ o.subscripts, ListFits r.parameters ∧ ListFits r.returns
  bindings : ∀ r ∈ o.bindings, ∀ d ∈ r.declaredType, d.Fits
  typealiases : ∀ r ∈ o.typealiases, r.aliased.Fits
  enumCases : ∀ r ∈ o.enumCases, ListFits r.associatedValues

variable {o : Outline}

theorem Fits.header (h : o.Fits) (k : DeclarationKind) {header : Header} (hheader : header ∈ o.headers k) :
    header.Fits := by
  apply h.headers
  exact List.mem_flatMap.mpr ⟨k, DeclarationKind.mem_all k, hheader⟩

/-- The records of a sort are read back if each one is that has a header in range. -/
theorem Fits.list?_list (h : o.Fits) (k : DeclarationKind) {α : Type} {records : List α} {header : α → Header}
    (hk : o.headers k = records.map header) {write : α → Json} {read : Json → Option α}
    (hread : ∀ r ∈ records, (header r).Fits → read (write r) = some r) :
    (Json.list write records).list? read = some records := by
  apply Json.list?_list
  intro r hr
  apply hread r hr
  apply h.header k
  rw [hk]
  exact List.mem_map_of_mem hr

/-- **Outlines are read back as they were written**, with all that their records say, owners with their
    attributes and modifiers among it. -/
theorem outline_read_back (h : o.Fits) : ofJson? o.toJson = some o := by
  have htypes := h.list?_list .container rfl fun r _ => ContainerRecord.ofJson?_toJson r
  have hfunctions := h.list?_list .function rfl fun r hr hheader =>
    FunctionRecord.ofJson?_toJson r hheader (h.functions r hr).1 (h.functions r hr).2
  have hinitializers := h.list?_list .initializer rfl fun r hr hheader =>
    InitializerRecord.ofJson?_toJson r hheader (h.initializers r hr)
  have hdeinitializers := h.list?_list .deinitializer rfl fun r _ => DeinitializerRecord.ofJson?_toJson r
  have hsubscripts := h.list?_list .subscript rfl fun r hr hheader =>
    SubscriptRecord.ofJson?_toJson r hheader (h.subscripts r hr).1 (h.subscripts r hr).2
  have hbindings := h.list?_list .binding rfl fun r hr hheader =>
    VariableRecord.ofJson?_toJson r hheader (h.bindings r hr)
  have htypealiases := h.list?_list .typealias rfl fun r hr hheader =>
    TypealiasRecord.ofJson?_toJson r hheader (h.typealiases r hr)
  have hassociatedTypes := h.list?_list .associatedType rfl fun r _ => AssociatedTypeRecord.ofJson?_toJson r
  have henumCases := h.list?_list .enumCase rfl fun r hr hheader =>
    EnumCaseRecord.ofJson?_toJson r hheader (h.enumCases r hr)
  have himports := h.list?_list .importing rfl fun r _ => ImportRecord.ofJson?_toJson r
  have hoperators := h.list?_list .operator rfl fun r _ => OperatorRecord.ofJson?_toJson r
  have hgroups := h.list?_list .precedenceGroup rfl fun r _ => PrecedenceGroupRecord.ofJson?_toJson r
  have hblocks := h.list?_list .conditional rfl fun r _ => ConditionalRecord.ofJson?_toJson r
  simp [ofJson?, toJson, htypes, hfunctions, hinitializers, hdeinitializers, hsubscripts,
    hbindings, htypealiases, hassociatedTypes, henumCases, himports, hoperators, hgroups, hblocks]

/-- A method whose owner has an attribute and a modifier, with a closure for a parameter and a span that
ends before it starts. -/
theorem outline_read_back_method :
    let header : Header :=
      { attributes := [], modifiers := [⟨"private", some "set"⟩], keyword := "func", name := "f"
        owner := some ⟨[⟨"objc", some "x"⟩], [⟨"final", none⟩], "class", "C"⟩
        span := ⟨9, 4⟩, startLocation := ⟨some 1, none, 9⟩, endLocation := ⟨none, some 7, 4⟩ }
    let closure : Descriptor := .closure (Fields.ofType "(A) -> B") [.ofType "A"] [.ofType "B"] {}
    let o : Outline := { functions :=
      [⟨header, [⟨"T", none⟩], [closure], some "Void", [], true, false, true, none, true⟩] }
    o.Fits ∧ ofJson? o.toJson = some o := by
  intro header closure o
  have hheader : header.Fits := by
    refine ⟨?_, ?_, ?_⟩
    · simp [header, Span.Fits, wordBound]
    · constructor <;> simp [header, lineBound, wordBound]
    · constructor <;> simp [header, lineBound, wordBound]
  have hparameters : Descriptor.ListFits [closure] := by
    simp [closure, Descriptor.ListFits, Descriptor.EachFits, Descriptor.Fits, Descriptor.ofType, wordBound]
  have hreturns : Descriptor.ListFits [] := by simp [Descriptor.ListFits, Descriptor.EachFits]
  have hfit : o.Fits := by
    constructor <;> simp [o, allHeaders, DeclarationKind.all, headers, hheader, hparameters, hreturns]
  exact ⟨hfit, outline_read_back hfit⟩

end Outline
end SwiftOutline
