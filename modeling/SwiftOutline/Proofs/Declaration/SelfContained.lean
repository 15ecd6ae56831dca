import SwiftOutline.Proofs.Declaration.Enclosure

/-!
# `SelfContained` — declarations that stand for themselves

The text of a declaration, taken out of its source, is a source of its own, and its outline is the part of the
outline that lies in the declaration's span.
-/

namespace SwiftOutline

open SwiftOutline.Tree Outline Place Declaration NodeKind List

/-! ## Excerpts of outlines -/

namespace Outline

/-- Some container in the span lies around the declaration with this header. -/
def ownsWithin (o : Outline) (s : Span) (h : Header) : Bool :=
  o.types.any fun c =>
    c.header.span.isWithin s && h.span.isWithin c.header.span && c.header.span != h.span

/-- The records in a span, as they are in a text that begins where the span does: spans are counted from
there, locations are those in the text, and owners outside the span are gone. -/
def excerpt (o : Outline) (s : Span) (text : String) : Outline :=
  ((o.filterHeaders fun h => h.span.isWithin s).mapHeaders fun h =>
    { h with
      owner := if o.ownsWithin s h then h.owner else none
      span := h.span.shiftDown s.start }).locate (some text)

theorem ownsWithin_locate (text : String) (o : Outline) (s : Span) (h : Header) :
    (o.locate (some text)).ownsWithin s h = o.ownsWithin s h := by
  rw [locate_some, ownsWithin, mapHeaders, any_map]
  rfl

end Outline

namespace Place

variable {source : String} {p r : Place}

/-! ## A declaration by itself -/

/-- What a walk from a node enters is what it enters in the tree by itself. -/
theorem visited_eq_map_moved (p : Place) : p.visited collectPolicy =
    ((root p.tree).visited collectPolicy).map (moved id p.above) := by
  rw [← visited_moved collectPolicy_ne_halt (collectPolicy_moved id p.above), moved_id_root]

theorem faithful_of_mem_above {g : Token → Token} {t u : Tree} (hg : Token.Faithful g t.tokens)
    (hr : r ∈ (root t).visited collectPolicy) (hu : u ∈ r.above) : Token.Faithful g u.tokens := by
  rcases visited_of_mem_above collectPolicy_ne_halt hr hu with hroot | ⟨q, hq, rfl, -⟩
  · cases hroot
  · exact faithful_part hg (contains_of_visited collectPolicy_ne_halt hq)

/-- **The records of a tree that is read elsewhere.** -/
theorem flatMap_declarations_moved {g : Token → Token} {t : Tree} (hg : Token.Faithful g t.tokens)
    (A : List Tree) :
    (((root t).visited collectPolicy).map (moved g A)).flatMap declarations =
      ((root t).visited collectPolicy).flatMap fun r => r.declarations.map
        (mapHeader (Header.placed (r.owner?.or (owner? ⟨t, A⟩)) (Token.spanOf (r.tree.tokens.map g)))) := by
  rw [flatMap_map, flatMap_def, flatMap_def]
  congr 1
  refine map_congr_left ?_
  intro r hr
  rw [declarations_moved (faithful_part hg (contains_of_visited collectPolicy_ne_halt hr)),
    owner?_moved (fun u hu => faithful_of_mem_above hg hr hu) t, ← tokens_relabel]
  rfl

/-- A walk through a source with one declaration finds what a walk from the declaration does. -/
theorem visited_sourceFile (t : Tree) : (root (.node .sourceFile [t])).visited collectPolicy =
    root (.node .sourceFile [t]) :: visited collectPolicy ⟨t, [.node .sourceFile [t]]⟩ := by
  have hdescend : collectPolicy ⟨.node .sourceFile [t], []⟩ = .descend := rfl
  rw [root, visited_node collectPolicy_ne_halt, if_pos hdescend, flatMap_singleton]

/-! ## Owners by spans -/

theorem ownsWithin_collect_iff {s : Span} {h : Header} : p.collect.ownsWithin s h = true ↔
    ∃ q ∈ p.visited collectPolicy, q.kind?.any isContainer = true ∧
      q.span.isWithin s = true ∧ h.span.isWithin q.span = true ∧ q.span ≠ h.span := by
  rw [ownsWithin, any_eq_true]
  constructor
  · rintro ⟨c, hc, htest⟩
    rw [collect, mem_types_ofDeclarations, mem_flatMap] at hc
    obtain ⟨q, hq, hc⟩ := hc
    have hspan : c.header.span = q.span := (header_of_mem_declarations hc).1
    rw [hspan, Bool.and_eq_true, Bool.and_eq_true, bne_iff_ne] at htest
    exact ⟨q, hq, isContainer_of_mem_declarations hc, htest.1.1, htest.1.2, htest.2⟩
  · rintro ⟨q, hq, hcontainer, hs, hh, hne⟩
    refine ⟨q.containerRecord, ?_, ?_⟩
    · rw [collect, mem_types_ofDeclarations, mem_flatMap]
      exact ⟨q, hq, containerRecord_mem_declarations hcontainer⟩
    · rw [show q.containerRecord.header.span = q.span from rfl, Bool.and_eq_true,
        Bool.and_eq_true, bne_iff_ne]
      exact ⟨⟨hs, hh⟩, hne⟩

/-- Inside a declaration, the containers around a record are those that it has by itself. -/
theorem ownsWithin_collect {whole : Place} (hwhole : whole.tree.IsPart source)
    (hp : p ∈ whole.visited collectPolicy) (hdecl : p.kind?.any isDecl = true)
    (hr : r ∈ (root p.tree).visited collectPolicy) (hrdecl : r.kind?.any isDecl = true)
    {h : Header} (hspan : h.span = r.span) : whole.collect.ownsWithin p.span h = r.owner?.isSome := by
  have hpart := hwhole.contains (contains_of_visited collectPolicy_ne_halt hp)
  rw [Bool.eq_iff_iff, owner?_isSome_iff hpart hr hrdecl, ownsWithin_collect_iff, hspan]
  constructor
  · rintro ⟨q, hq, hcontainer, hs, hh, hne⟩
    have hin := visited_of_isWithin hwhole hp hdecl hq (any_isDecl hcontainer) hs
    rw [visited_eq_map_moved] at hin
    obtain ⟨q, hlocal, rfl⟩ := mem_map.mp hin
    rw [kind?_moved] at hcontainer
    rw [span_moved_id] at hh hne
    exact ⟨q, hlocal, hcontainer, hh, hne⟩
  · rintro ⟨q, hq, hcontainer, hh, hne⟩
    have hin : q.moved id p.above ∈ p.visited collectPolicy := by
      rw [visited_eq_map_moved]
      exact mem_map_of_mem hq
    have hcontainer' : (q.moved id p.above).kind?.any isContainer = true := by
      rw [kind?_moved]
      exact hcontainer
    refine ⟨_, visited_trans collectPolicy_ne_halt hp hin, hcontainer',
      isWithin_of_visited hpart hdecl hin (any_isDecl hcontainer'), ?_⟩
    rw [span_moved_id]
    exact ⟨hh, hne⟩

/-! ## The two outlines -/

/-- The records of a declaration by itself, counted from an offset. -/
def recordsFrom (base : Nat) (t : Tree) : List Declaration :=
  ((root t).visited collectPolicy).flatMap fun r =>
    r.declarations.map (mapHeader (Header.placed r.owner? (r.span.shiftDown base)))

/-- The excerpt of an outline in the span of a declaration. -/
theorem excerpt_collect {whole : Place} (hwhole : whole.tree.IsPart source)
    (hp : p ∈ whole.visited collectPolicy) (hdecl : p.kind?.any isDecl = true) (text : String) :
    (whole.collect.locate (some source)).excerpt p.span text =
      (ofDeclarations (recordsFrom p.span.start p.tree)).locate (some text) := by
  have hspan : ((fun d : Declaration => d.header.span.isWithin p.span) ∘
      mapHeader (Header.located source)) = fun d => d.header.span.isWithin p.span := by
    funext d
    rw [Function.comp, header_mapHeader]
    rfl
  have howner : ∀ r ∈ (root p.tree).visited collectPolicy, ∀ d ∈ r.declarations, ∀ h : Header,
      h.span = r.span → whole.collect.ownsWithin p.span h = r.owner?.isSome :=
    fun r hr d hd h hspan => ownsWithin_collect hwhole hp hdecl hr (isDecl_of_mem_declarations hd) hspan
  have hkept : ((whole.collect.locate (some source)).filterHeaders fun h => h.span.isWithin p.span) =
      ofDeclarations (((p.visited collectPolicy).flatMap declarations).map
        (mapHeader (Header.located source))) := by
    rw [collect, locate_some, mapHeaders_ofDeclarations, filterHeaders_ofDeclarations,
      filter_map, hspan, filter_declarations hwhole hp hdecl]
  simp only [excerpt, ownsWithin_locate, hkept]
  generalize whole.collect.ownsWithin p.span = owns at howner
  rw [locate_some, mapHeaders_ofDeclarations, mapHeaders_ofDeclarations,
    locate_some, mapHeaders_ofDeclarations, visited_eq_map_moved,
    flatMap_declarations_moved (Token.faithful_id _), recordsFrom]
  simp only [map_flatMap, map_map]
  rw [flatMap_def, flatMap_def]
  congr 2
  refine map_congr_left fun r hr => map_congr_left fun d hd => ?_
  simp only [Function.comp, mapHeader_mapHeader]
  refine mapHeader_congr ?_
  rw [map_id]
  have howns := howner r hr d hd
    (Header.located source (Header.placed (r.owner?.or p.owner?) (Token.spanOf r.tree.tokens) d.header)) rfl
  simp only [Function.comp, howns]
  cases r.owner? with
  | none => rfl
  | some owner => rfl

/-- The outline of a source with one declaration. -/
theorem collect_sourceFile {t : Tree} (ht : t.Declares source) {first : Token} {rest : List Token}
    (htokens : t.tokens = first :: rest) :
    (root (.node .sourceFile [t.relabel (Token.excerpt first)])).collect =
      ofDeclarations (recordsFrom first.start t) := by
  obtain ⟨tokens, htokenize, hin⟩ := ht.isPart.tokens
  rw [htokens] at hin
  have hg : Token.Faithful (Token.excerpt first) t.tokens := by
    rw [htokens]
    exact Token.faithful_excerpt (not_mem_of_isInfix htokenize hin)
  have hfirst : (Token.spanOf t.tokens).start = first.start := by
    rw [htokens]
    rfl
  rw [collect, visited_sourceFile, flatMap_cons, ← moved_root, visited_moved collectPolicy_ne_halt
    (collectPolicy_moved _ _), flatMap_declarations_moved hg]
  show ofDeclarations (List.flatMap _ _) = _
  rw [recordsFrom, flatMap_def, flatMap_def]
  congr 2
  refine map_congr_left ?_
  intro r hr
  have hcontains := contains_of_visited collectPolicy_ne_halt hr
  have hbase : ∀ u ∈ r.tree.tokens, first.start ≤ u.start := by
    intro u hu
    rw [← hfirst]
    exact ht.ordered.start_le (hcontains.tokens_isInfix.subset hu)
  rw [Token.spanOf_map_shiftDown (Token.start_excerpt first) (Token.text_excerpt first) hbase]
  show List.map (mapHeader (Header.placed (r.owner?.or none) _)) _ = _
  rw [Option.or_none]
  rfl

end Place

theorem outlineOf_of_parseSource {source : String} {tree : Tree} (h : parseSource source = .ok tree) :
    outlineOf source = .ok ((Place.root tree).collect.locate (some source)) := by
  rw [outlineOf, h]
  rfl

/-- **Declarations are self-contained.** The text of a declaration that the walk through a source comes to has
an outline, and it is the excerpt of the outline of the source. -/
theorem declaration_self_contained {source : String} {tree : Tree} {o : Outline} {p : Place}
    (hparse : parseSource source = .ok tree) (ho : outlineOf source = .ok o)
    (hp : p ∈ (Place.root tree).visited Place.collectPolicy)
    (hdecl : p.kind?.any NodeKind.isDecl = true) :
    outlineOf p.text = .ok (o.excerpt p.span p.text) := by
  have hpart : (Place.root tree).tree.IsPart source := isPart_of_parseSource hparse
  have hdeclares := Place.declares_of_visited hpart hp hdecl
  obtain ⟨first, rest, htokens⟩ := exists_cons_of_ne_nil hdeclares.tokens_ne_nil
  have ho := Except.ok.inj ((outlineOf_of_parseSource hparse).symm.trans ho)
  have hstart : p.span.start = first.start := by
    rw [Place.span, Tree.span, htokens]
    rfl
  rw [outlineOf, Place.text, hdeclares.parseSource_text htokens, ← ho,
    Place.excerpt_collect hpart hp hdecl, hstart, ← Place.collect_sourceFile hdeclares htokens]
  rfl

/-- Cut out of its class, a structure loses its owner, and its members keep theirs. -/
theorem declaration_self_contained_member : ∃ source tree o p,
    source = "import A\npublic class B \x7b\n  /* of B */ struct C \x7b\n    var x, y: Int\n  \x7d\n\x7d" ∧
    parseSource source = .ok tree ∧ outlineOf source = .ok o ∧
    p ∈ (Place.root tree).visited Place.collectPolicy ∧ p.kind?.any NodeKind.isDecl = true ∧
    p.text = "struct C \x7b\n    var x, y: Int\n  \x7d" ∧
    outlineOf p.text = .ok (o.excerpt p.span p.text) ∧
    (o.excerpt p.span p.text).types.map (·.header.owner) = [none] ∧
    (o.excerpt p.span p.text).bindings.map (fun b => (b.header.name, b.header.owner.map Owner.description)) =
      [("x", some "struct C"), ("y", some "struct C")] := by
  obtain ⟨tree, hparse, p, hp, hdecl, htext⟩ := exists_ok_of_test (x := parseSource
      "import A\npublic class B \x7b\n  /* of B */ struct C \x7b\n    var x, y: Int\n  \x7d\n\x7d")
        (P := fun tree =>
    ∃ p ∈ (Place.root tree).visited Place.collectPolicy, p.kind?.any NodeKind.isDecl = true ∧
      p.text = "struct C \x7b\n    var x, y: Int\n  \x7d") (by decide +kernel)
  obtain ⟨part, hpart, howners⟩ :=
    exists_ok_of_test (x := outlineOf "struct C \x7b\n    var x, y: Int\n  \x7d")
    (P := fun o => o.types.map (·.header.owner) = [none] ∧
      o.bindings.map (fun b => (b.header.name, b.header.owner.map Owner.description)) =
        [("x", some "struct C"), ("y", some "struct C")]) (by decide +kernel)
  have ho := outlineOf_of_parseSource hparse
  have hself := declaration_self_contained hparse ho hp hdecl
  rw [← htext, hself] at hpart
  cases hpart
  exact ⟨_, tree, _, p, rfl, hparse, ho, hp, hdecl, htext, hself, howners⟩

end SwiftOutline
