import Mathlib.Data.List.Pairwise
import SwiftOutline.Proofs.Declaration.Reachable

/-!
# `Ownership` — owners by spans

The owner of a declaration is found by climbing its ancestors. An outline holds no ancestors, but the
spans of its containers say the same: the containers whose spans hold the span of a record and more lie
one in the other, and the owner is the innermost of them.
-/

namespace SwiftOutline

open SwiftOutline.Tree Place NodeKind Outline List

/-- What the header of a container says of it as an owner. -/
def Header.toOwner (h : Header) : Owner where
  attributes := h.attributes
  modifiers := h.modifiers
  keyword := h.keyword
  name := h.name

/-- The containers of an outline that lie around a span. -/
def Outline.around (o : Outline) (s : Span) : List ContainerRecord :=
  o.types.filter fun c => s.isInside c.header.span

theorem Outline.around_eq_nil_iff (o : Outline) (s : Span) :
    o.around s = [] ↔ ∀ c ∈ o.types, s.isInside c.header.span = false := by
  simp only [around, filter_eq_nil_iff, Bool.not_eq_true]

namespace Place

variable {source : String} {tree : Tree} {q r : Place}

/-! ## Containers around a declaration -/

/-- **A declaration lies around another** if it is one of its ancestors. -/
theorem isInside_iff_mem_ancestors (htree : tree.IsPart source) (hq : q ∈ reachable tree)
    (hqdecl : q.kind?.any isDecl = true) (hr : r ∈ reachable tree)
    (hrdecl : r.kind?.any isDecl = true) :
    r.span.isInside q.span = true ↔ q ∈ r.ancestors := by
  have hdeclares := declares_of_reachable htree hq hqdecl
  have hdeclares' := declares_of_reachable htree hr hrdecl
  rw [← visited_eq_reachable] at hq hr
  constructor
  · intro hinside
    obtain ⟨hwithin, hne⟩ := Span.isInside_iff.mp hinside
    have hin := visited_of_isWithin (p := root tree) htree hq hqdecl hr hrdecl hwithin
    rcases mem_ancestors_of_visited collectPolicy_ne_halt hin with rfl | hmem
    · exact absurd rfl hne
    · exact hmem
  · intro hmem
    exact isInside_of_encloses hdeclares hdeclares' ((encloses_ancestors collectPolicy_ne_halt hr).2 q hmem)

/-- The containers above a place, the nearest first. -/
def containers (r : Place) : List Place := r.ancestors.filter fun a => a.kind?.any isContainer

theorem owner?_eq_head? (r : Place) : r.owner? = r.containers.head?.map toOwner := by
  rw [owner?, containers, List.head?_filter]

/-- What stands above a reachable node is reachable. -/
theorem reachable_of_mem_ancestors (hr : r ∈ reachable tree) (hq : q ∈ r.ancestors) : q ∈ reachable tree := by
  rw [← visited_eq_reachable] at hr ⊢
  rcases visited_of_mem_ancestors collectPolicy_ne_halt hr hq with hroot | hvisited
  · cases hroot
  · exact hvisited

/-- **The containers above a node** lie each in the next. -/
theorem pairwise_containers (htree : tree.IsPart source) (hr : r ∈ reachable tree) :
    r.containers.Pairwise fun a b => a.span.isWithin b.span = true := by
  have hdeclares : ∀ a ∈ r.containers, a.tree.Declares source := by
    intro a ha
    obtain ⟨ha, hcontainer⟩ := mem_filter.mp ha
    exact declares_of_reachable htree (reachable_of_mem_ancestors hr ha) (any_isDecl hcontainer)
  rw [← visited_eq_reachable] at hr
  have hchain := (encloses_ancestors collectPolicy_ne_halt hr).1
  refine (hchain.sublist filter_sublist).imp_of_mem ?_
  intro a b ha hb hencloses
  exact (hdeclares b hb).isWithin (hdeclares a ha) hencloses.contains

theorem isWithin_or_isWithin (htree : tree.IsPart source) (hr : r ∈ reachable tree) {a b : Place}
    (ha : a ∈ r.containers) (hb : b ∈ r.containers) :
    a.span.isWithin b.span = true ∨ b.span.isWithin a.span = true := by
  let R (a b : Place) : Prop := a.span.isWithin b.span = true ∨ b.span.isWithin a.span = true
  have hsymm : Std.Symm R := ⟨fun _ _ => Or.symm⟩
  have hchain : r.containers.Pairwise R := (pairwise_containers htree hr).imp Or.inl
  exact hchain.forall_of_forall (fun a _ => .inl (Span.isWithin_refl a.span)) ha hb

/-- The owner of a declaration is its nearest container, and that lies in all others. -/
theorem exists_innermost (htree : tree.IsPart source) (hr : r ∈ reachable tree) (hne : r.containers ≠ []) :
    ∃ q ∈ r.containers, (∀ s ∈ r.containers, q.span.isWithin s.span = true) ∧ r.owner? = some q.toOwner := by
  have hchain := pairwise_containers htree hr
  rw [owner?_eq_head?]
  cases hcontainers : r.containers with
  | nil => exact absurd hcontainers hne
  | cons q qs =>
    rw [hcontainers] at hchain
    refine ⟨q, mem_cons_self, ?_, rfl⟩
    intro s hs
    rcases mem_cons.mp hs with rfl | hs
    · exact Span.isWithin_refl _
    · exact rel_of_pairwise_cons hchain hs

/-- Two containers above a declaration with the same span are the same. -/
theorem containers_eq_of_span_eq (htree : tree.IsPart source) (hr : r ∈ reachable tree) {a b : Place}
    (ha : a ∈ r.containers) (hb : b ∈ r.containers) (hspan : b.span = a.span) : b = a := by
  obtain ⟨ha, hacontainer⟩ := mem_filter.mp ha
  obtain ⟨hb, hbcontainer⟩ := mem_filter.mp hb
  have ha := (mem_filter.mp (reachable_of_mem_ancestors hr ha)).1
  have hb := (mem_filter.mp (reachable_of_mem_ancestors hr hb)).1
  exact eq_of_span_eq htree ha hb (any_isDecl hacontainer) (any_isDecl hbcontainer) hspan

end Place

/-! ## Records of an outline -/

section

variable {source : String} {tree : Tree}

/-- The record of a container in the outline of a source. -/
def Place.locatedRecord (source : String) (p : Place) : ContainerRecord :=
  { p.containerRecord with header := p.containerRecord.header.located source }

/-- The containers of an outline are the reachable ones of the tree. -/
theorem mem_types_locate {c : ContainerRecord} :
    c ∈ ((root tree).collect.locate (some source)).types ↔
      ∃ q ∈ reachable tree, q.kind?.any isContainer = true ∧ c = q.locatedRecord source := by
  rw [locate_some, collect, ofDeclarations_flatMap, visited_eq_reachable]
  simp only [mapHeaders, ofNodes, map_map, mem_map, mem_filter]
  constructor
  · rintro ⟨q, ⟨hq, hcontainer⟩, rfl⟩
    exact ⟨q, hq, hcontainer, rfl⟩
  · rintro ⟨q, hq, hcontainer, rfl⟩
    exact ⟨q, ⟨hq, hcontainer⟩, rfl⟩

/-- The containers around a declaration are those above it. -/
theorem mem_around_locate (htree : tree.IsPart source) {r : Place} (hr : r ∈ reachable tree)
    (hrdecl : r.kind?.any isDecl = true) {c : ContainerRecord} :
    c ∈ ((root tree).collect.locate (some source)).around r.span ↔
      ∃ q ∈ r.containers, c = q.locatedRecord source := by
  have hspan (q : Place) : (q.locatedRecord source).header.span = q.span := rfl
  rw [Outline.around, mem_filter, mem_types_locate]
  constructor
  · rintro ⟨⟨q, hq, hcontainer, rfl⟩, hinside⟩
    rw [hspan, isInside_iff_mem_ancestors htree hq (any_isDecl hcontainer) hr hrdecl] at hinside
    exact ⟨q, mem_filter.mpr ⟨hinside, hcontainer⟩, rfl⟩
  · rintro ⟨q, hq, rfl⟩
    obtain ⟨hmem, hcontainer⟩ := mem_filter.mp hq
    have hq := reachable_of_mem_ancestors hr hmem
    rw [hspan, isInside_iff_mem_ancestors htree hq (any_isDecl hcontainer) hr hrdecl]
    exact ⟨⟨q, hq, hcontainer, rfl⟩, hmem⟩

/-- A record of an outline has the header of a reachable declaration, with its places. -/
theorem exists_declaration_of_mem_locate {k : DeclarationKind} {h : Header}
    (hh : h ∈ ((root tree).collect.locate (some source)).headers k) :
    ∃ p ∈ reachable tree, ∃ d ∈ p.declarations, h = d.header.located source := by
  rw [locate_some, headers_mapHeaders] at hh
  obtain ⟨g, hg, rfl⟩ := mem_map.mp hh
  obtain ⟨p, hp, d, hd, rfl⟩ := exists_declaration_of_mem_headers hg
  exact ⟨p, hp, d, hd, rfl⟩

end

/-- The owner in a header is the innermost container of the outline around its span. -/
structure Header.HasInnermostOwner (o : Outline) (h : Header) : Prop where
  /-- There is no owner if no container has a span that holds the header's span and more. -/
  none : h.owner = none ↔ ∀ c ∈ o.types, h.span.isInside c.header.span = false
  /-- The containers that do lie one in the other. -/
  nested : ∀ c ∈ o.around h.span, ∀ d ∈ o.around h.span,
    c.header.span.isWithin d.header.span = true ∨ d.header.span.isWithin c.header.span = true
  /-- One lies in all of them, no other has its span, and the owner is what its header says. -/
  innermost : o.around h.span ≠ [] → ∃ c ∈ o.around h.span,
    (∀ d ∈ o.around h.span, c.header.span.isWithin d.header.span = true) ∧
    (∀ d ∈ o.around h.span, d.header.span = c.header.span → d = c) ∧ h.owner = some c.header.toOwner

/-- **The owner of a record is the innermost container around its span.** -/
theorem owner_is_innermost {source : String} {o : Outline} (ho : outlineOf source = .ok o)
    {k : DeclarationKind} {h : Header} (hh : h ∈ o.headers k) : h.HasInnermostOwner o := by
  obtain ⟨tree, hparse, rfl⟩ := ok_of_map_eq_ok ho
  have htree := isPart_of_parseSource hparse
  obtain ⟨r, hr, d, hd, rfl⟩ := exists_declaration_of_mem_locate hh
  have haround {c : ContainerRecord} :=
    mem_around_locate (c := c) htree hr (Place.isDecl_of_mem_declarations hd)
  have hspan : (d.header.located source).span = r.span := (Place.header_of_mem_declarations hd).1
  have hsame : (d.header.located source).owner = r.owner? := (Place.header_of_mem_declarations hd).2
  refine ⟨?_, ?_, ?_⟩ <;> rw [hspan]
  · -- no container around is no container above
    rw [hsame, ← Outline.around_eq_nil_iff, Place.owner?_eq_head?, Option.map_eq_none_iff,
      List.head?_eq_none_iff, eq_nil_iff_forall_not_mem, eq_nil_iff_forall_not_mem]
    simp only [haround]
    constructor
    · rintro hnone c ⟨q, hq, -⟩
      exact hnone q hq
    · intro hnone q hq
      exact hnone _ ⟨q, hq, rfl⟩
  · intro c hc d hd
    obtain ⟨a, ha, rfl⟩ := haround.mp hc
    obtain ⟨b, hb, rfl⟩ := haround.mp hd
    exact Place.isWithin_or_isWithin htree hr ha hb
  · intro hne
    obtain ⟨c, hc⟩ := exists_mem_of_ne_nil _ hne
    obtain ⟨a, ha, -⟩ := haround.mp hc
    obtain ⟨q, hq, hinnermost, howner⟩ := Place.exists_innermost htree hr (ne_nil_of_mem ha)
    refine ⟨q.locatedRecord source, haround.mpr ⟨q, hq, rfl⟩, ?_, ?_, hsame.trans howner⟩
    · intro d hd
      obtain ⟨b, hb, rfl⟩ := haround.mp hd
      exact hinnermost b hb
    · intro d hd hsame
      obtain ⟨b, hb, rfl⟩ := haround.mp hd
      rw [Place.containers_eq_of_span_eq htree hr hq hb hsame]

/-- A binding in a clause of a class that is in a structure belongs to the class, and the class to the
structure. -/
theorem owner_is_innermost_clause : ∃ o,
    outlineOf "struct A \x7b\nprivate class B \x7b\n#if C\nvar x: Int\n#endif\n\x7d\n\x7d" = .ok o ∧
    ∃ h ∈ o.headers .binding, h.HasInnermostOwner o ∧
      (o.around h.span).map (·.header.name) = ["A", "B"] ∧
      h.owner.map (fun w => (w.modifiers.map (·.name), w.keyword, w.name)) =
        some (["private"], "class", "B") := by
  obtain ⟨o, ho, h, hh, howner⟩ := exists_ok_of_test
    (x := outlineOf "struct A \x7b\nprivate class B \x7b\n#if C\nvar x: Int\n#endif\n\x7d\n\x7d")
      (P := fun o =>
      ∃ h ∈ o.headers .binding, (o.around h.span).map (·.header.name) = ["A", "B"] ∧
        h.owner.map (fun w => (w.modifiers.map (·.name), w.keyword, w.name)) =
          some (["private"], "class", "B"))
    (by decide +kernel)
  exact ⟨o, ho, h, hh, owner_is_innermost ho hh, howner⟩

end SwiftOutline
