import Mathlib.Data.List.Forall2
import Mathlib.Data.List.Perm.Subperm
import SwiftOutline.Proofs.Declaration.Records
import SwiftOutline.Proofs.Text.Lookup

/-!
# `Located` — the pass that fills in locations

The records of an outline are visited sort by sort, and of each record only the header, of which only the
two locations are changed. The span of a header may be any two numbers, since it may have been read back
from a file. A number past the end of the source is moved to the end, and one inside a character still
has its line.
-/

namespace SwiftOutline

open Text Declaration List

/-! ## Every offset has a location -/

namespace Text

theorem length_le_byteSize (cs : List Char) : cs.length ≤ byteSize cs := by
  induction cs with
  | nil => exact Nat.le_refl 0
  | cons c cs ih =>
    have hc := c.utf8Size_pos
    rw [length_cons, byteSize_cons]
    omega

theorem pairwise_breaksFrom (start : Nat) (cs : List Char) :
    (start :: breaksFrom start cs).Pairwise (· < ·) := by
  refine pairwise_cons.mpr ⟨fun n hn => (mem_breaksFrom hn).1, ?_⟩
  induction cs generalizing start with
  | nil => exact .nil
  | cons c cs ih =>
    rw [breaksFrom]
    split
    · exact pairwise_cons.mpr ⟨fun n hn => (mem_breaksFrom hn).1, ih _⟩
    · exact ih _

/-- Of increasing numbers those up to a bound come first. -/
theorem filter_append_filter {ns : List Nat} (h : ns.Pairwise (· < ·)) (n : Nat) :
    ns.filter (· ≤ n) ++ ns.filter (fun m => !decide (m ≤ n)) = ns := by
  refine (filter_append_perm _ ns).eq_of_pairwise (fun _ _ _ _ hlt hlt' =>
    absurd hlt (Nat.lt_asymm hlt')) ?_ h
  refine pairwise_append.mpr ⟨h.filter _, h.filter _, fun x hx y hy => ?_⟩
  simp only [mem_filter, decide_eq_true_eq, Bool.not_eq_true', decide_eq_false_iff_not] at hx hy
  omega

end Text

namespace LineIndex

/-- The line holds the offset: it starts at or before it, and the next line, if there is one, behind it. -/
structure Holds (index : LineIndex) (offset line start : Nat) : Prop where
  starts : index.starts[line]? = some start
  start_le : start ≤ offset
  lt_next : ∀ next, index.starts[line + 1]? = some next → offset < next
  /-- A line has at least one byte, its line break, so there are no more lines than bytes before it. -/
  line_le : line ≤ start

/-- The lines that start at or before an offset end with the line that holds it. -/
theorem exists_holds (text : String) (offset : Nat) :
    ∃ front start, (ofSource text).starts.filter (· ≤ offset) = front ++ [start] ∧
      (ofSource text).Holds offset front.length start := by
  have hsorted : (ofSource text).starts.Pairwise (· < ·) := pairwise_breaksFrom 0 text.toList
  have hsplit := filter_append_filter hsorted offset
  -- the first line starts at 0
  have hne : (ofSource text).starts.filter (· ≤ offset) ≠ [] := by simp [ofSource]
  obtain ⟨front, start, hbefore⟩ := (eq_nil_or_concat _).resolve_left hne
  rw [concat_eq_append] at hbefore
  rw [hbefore, append_assoc, singleton_append] at hsplit
  have hpairwise := hsorted.filter (· ≤ offset)
  rw [hbefore, pairwise_append] at hpairwise
  refine ⟨front, start, hbefore, ?_, ?_, ?_, ?_⟩
  · rw [← hsplit, List.getElem?_append_right (Nat.le_refl _), Nat.sub_self]
    rfl
  · have hmem : start ∈ (ofSource text).starts.filter (· ≤ offset) := by simp [hbefore]
    simpa using (mem_filter.mp hmem).2
  · intro next hnext
    rw [← hsplit, List.getElem?_append_right (Nat.le_succ _), Nat.succ_sub (Nat.le_refl _),
      Nat.sub_self] at hnext
    simpa using (mem_filter.mp (mem_of_getElem? (i := 0) hnext)).2
  · have hsub : front ⊆ List.range start := fun m hm =>
      mem_range.mpr (hpairwise.2.2 m hm start mem_cons_self)
    have hle := (List.Nodup.subperm (hpairwise.1.imp Nat.ne_of_lt) hsub).length_le
    rwa [length_range] at hle

end LineIndex

/-- What a location says of an offset, which may be any number. Without a source it says nothing. An
offset past the end of the text is moved to the end. The line is the one that holds it, and the column
counts the characters since the line's start, or the bytes if the offset is inside a character. Both are
numbers of 32 bits. -/
def Location.Resolves (l : Location) (offset : Nat) : Option String → Prop
  | none => l = .empty
  | some text =>
    ∃ line start column, l = ⟨some (ordinal line), some (ordinal column), min offset text.utf8ByteSize⟩ ∧
      (LineIndex.ofSource text).Holds l.offset line start ∧
      column = ((slice? text.toList ⟨start, l.offset⟩).map List.length).getD (l.offset - start) ∧
      line + column ≤ l.offset

/-- **Every offset has a location**, also past the end and inside a character. -/
theorem LineIndex.resolves_location (text : String) (offset : Nat) :
    ((ofSource text).location offset).Resolves offset (some text) := by
  obtain ⟨front, start, hbefore, hholds⟩ := exists_holds text (min offset text.utf8ByteSize)
  have hlocation : (ofSource text).location offset = ⟨some (ordinal front.length),
      some (ordinal (((slice? text.toList ⟨start, min offset text.utf8ByteSize⟩).map List.length).getD
        (min offset text.utf8ByteSize - start))), min offset text.utf8ByteSize⟩ := by
    have hsize : byteSize (ofSource text).source = text.utf8ByteSize := byteSize_toList text
    simp only [location, hsize, hbefore, length_append, List.getLast?_concat, Option.getD_some]
    cases hslice : slice? text.toList ⟨start, min offset text.utf8ByteSize⟩ <;> simp [ofSource, hslice]
  rw [hlocation]
  refine ⟨_, start, _, rfl, hholds, rfl, ?_⟩
  have hline := hholds.line_le
  have hstart := hholds.start_le
  cases hslice : slice? text.toList ⟨start, min offset text.utf8ByteSize⟩ with
  | none =>
    simp only [Option.map_none, Option.getD_none]
    omega
  | some cs =>
    obtain ⟨a, b, -, ha, hb⟩ := slice?_eq_some hslice
    have hle := length_le_byteSize cs
    simp only [Option.map_some, Option.getD_some] at ha hb ⊢
    omega

/-! ## All records -/

/-- Visits the header of a record and puts another one in its place. -/
def Declaration.visit {m : Type → Type} [Monad m] (f : Header → m Header) (d : Declaration) : m Declaration :=
  (fun h => d.mapHeader fun _ => h) <$> f d.header

namespace Outline

/-- The records of all thirteen lists, sort by sort. -/
def declarations (o : Outline) : List Declaration :=
  o.types.map .container ++ o.functions.map .function ++ o.initializers.map .initializer ++
    o.deinitializers.map .deinitializer ++ o.subscripts.map .subscript ++ o.bindings.map .binding ++
    o.typealiases.map .typealias ++ o.associatedTypes.map .associatedType ++ o.enumCases.map .enumCase ++
    o.imports.map .importing ++ o.operators.map .operator ++ o.precedenceGroups.map .precedenceGroup ++
    o.conditionalBlocks.map .conditional

/-- No list is left out. -/
theorem ofDeclarations_declarations (o : Outline) : ofDeclarations o.declarations = o := by
  simp [ofDeclarations, declarations, filterMap_map, Function.comp_def, toContainer?,
    toFunction?, toInitializer?, toDeinitializer?, toSubscript?, toBinding?, toTypealias?, toAssociatedType?,
    toEnumCase?, toImporting?, toOperator?, toPrecedenceGroup?, toConditional?]

theorem declarations_injective : Function.Injective declarations :=
  Function.LeftInverse.injective ofDeclarations_declarations

theorem map_header_declarations (o : Outline) : o.declarations.map header = o.allHeaders := by
  simp [declarations, allHeaders, DeclarationKind.all, headers, Function.comp_def, header]

theorem declarations_mapHeaders (f : Header → Header) (o : Outline) :
    (o.mapHeaders f).declarations = o.declarations.map (mapHeader f) := by
  simp [declarations, mapHeaders, Function.comp_def, mapHeader]

section

variable {m : Type → Type} [Monad m] [LawfulMonad m] {f : Header → m Header}

/-- The records of one sort are visited as records. -/
theorem mapM_records {α β : Type} {wrap : α → Declaration} {visit : α → m α} {l : List α} {k : List α → m β}
    {k' : List Declaration → m β} (hvisit : ∀ r, (wrap r).visit f = wrap <$> visit r)
    (hrest : ∀ l, k l = k' (l.map wrap)) :
    l.mapM visit >>= k = (l.map wrap).mapM (Declaration.visit f) >>= k' := by
  have hmap : (l.map wrap).mapM (Declaration.visit f) = List.map wrap <$> l.mapM visit := by
    induction l with
    | nil => simp only [map_nil, mapM_nil, map_pure]
    | cons r l ih =>
      rw [List.map_cons, mapM_cons, mapM_cons, ih, hvisit]
      simp only [map_bind, bind_map_left, map_pure, List.map_cons]
  rw [hmap, bind_map_left]
  exact bind_congr hrest

/-- **Visiting the headers visits all records in order**, whatever the visit does. -/
theorem declarations_mapHeadersM (o : Outline) :
    declarations <$> o.mapHeadersM f = o.declarations.mapM (visit f) := by
  simp only [declarations, mapHeadersM, mapM_append, bind_assoc, pure_bind, map_bind, map_pure]
  -- one list after the other
  iterate 13
    refine mapM_records (f := f) (fun r => ?_) fun _ => ?_
    · simp only [visit, mapHeader, header, bind_pure_comp, Functor.map_map]
  rfl

end

/-- A visit that notes the header and changes it. -/
def noting (change : Header → Header) (h : Header) : StateM (List Header) Header :=
  fun seen => (change h, seen ++ [h])

theorem mapM_visit_noting (change : Header → Header) (ds : List Declaration) (seen : List Header) :
    (ds.mapM (visit (noting change))).run seen =
      (ds.map (mapHeader change), seen ++ ds.map header) := by
  induction ds generalizing seen with
  | nil =>
    rw [map_nil, map_nil, append_nil]
    rfl
  | cons d ds ih =>
    rw [mapM_cons, List.map_cons, List.map_cons, append_cons, mapHeader_eq_const]
    exact congrArg (fun r => (d.mapHeader (fun _ => change d.header) :: r.1, r.2)) (ih (seen ++ [d.header]))

/-- **Each header is visited once**, sort by sort and each in order. -/
theorem run_mapHeadersM_noting (change : Header → Header) (o : Outline) :
    (o.mapHeadersM (noting change)).run [] = (o.mapHeaders change, o.allHeaders) := by
  have hrun := congrArg (StateT.run · []) (declarations_mapHeadersM (f := noting change) o)
  rw [mapM_visit_noting, nil_append, map_header_declarations, ← declarations_mapHeaders] at hrun
  obtain ⟨hfirst, hsecond⟩ := Prod.mk.inj hrun
  exact Prod.ext (declarations_injective hfirst) hsecond

end Outline

/-! ## Filling in locations -/

/-- A record with the same contents, in which both locations are those of the ends of its span. -/
def Declaration.Relocated (source : Option String) (d d' : Declaration) : Prop :=
  ∃ first last, d' = d.mapHeader (fun h => { h with startLocation := first, endLocation := last }) ∧
    first.Resolves d.header.span.start source ∧ last.Resolves d.header.span.stop source

namespace Outline

theorem relocated_mapHeader (source : Option String) (d : Declaration) :
    d.Relocated source (d.mapHeader (Header.locatedIn source)) := by
  cases source with
  | none => exact ⟨.empty, .empty, rfl, rfl, rfl⟩
  | some text =>
    exact ⟨_, _, mapHeader_congr rfl, LineIndex.resolves_location text _, LineIndex.resolves_location text _⟩

/-- What filling in locations does to an outline. -/
structure LocatesAll (o : Outline) : Prop where
  /-- The records are those of the thirteen lists, in the order in which headers are listed and counted. -/
  records : ofDeclarations o.declarations = o
  headers : o.declarations.map header = DeclarationKind.all.flatMap o.headers
  /-- Each header is visited once. -/
  visits : ∀ change,
    (o.mapHeadersM (noting change)).run [] = (o.mapHeaders change, DeclarationKind.all.flatMap o.headers)
  size : (DeclarationKind.all.flatMap o.headers).length = o.size
  count : o.size = (DeclarationKind.all.map o.count).foldr (· + ·) 0
  /-- Both locations of each header are set, whatever its span is. -/
  locations : ∀ source, List.Forall₂ (Relocated source) o.declarations
    (o.locate source).declarations
  /-- What they were before does not matter. -/
  again : ∀ source source', (o.locate source).locate source' = o.locate source'
  unread : ∀ h ∈ DeclarationKind.all.flatMap (o.locate none).headers, h.startLocation = .empty ∧
    h.endLocation = .empty

/-- **Filling in locations reaches every header and changes nothing else**, as `mapHeadersM` visits each
record once. -/
theorem locate_sets_locations (o : Outline) : o.LocatesAll := by
  refine ⟨o.ofDeclarations_declarations, o.map_header_declarations,
    fun change => o.run_mapHeadersM_noting change, rfl, length_flatMap, fun source => ?_,
      fun source source' => ?_, ?_⟩
  · rw [locate_eq_mapHeaders, declarations_mapHeaders, forall₂_map_right_iff, forall₂_same]
    exact fun d _ => relocated_mapHeader source d
  · apply declarations_injective
    simp only [locate_eq_mapHeaders, declarations_mapHeaders, map_map]
    refine map_congr_left fun d _ => ?_
    rw [Function.comp_apply, mapHeader_mapHeader]
    refine mapHeader_congr ?_
    cases source <;> cases source' <;> rfl
  · intro h hh
    obtain ⟨k, -, hk⟩ := mem_flatMap.mp hh
    rw [locate_eq_mapHeaders, headers_mapHeaders] at hk
    obtain ⟨h, -, rfl⟩ := mem_map.mp hk
    exact ⟨rfl, rfl⟩

end Outline

end SwiftOutline
