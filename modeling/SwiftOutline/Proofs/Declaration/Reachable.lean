import SwiftOutline.Proofs.Declaration.Enclosure
import SwiftOutline.Proofs.Tree.Nodes

/-!
# `Reachable` — the declarations that an outline reports

An outline reports the declarations that are members of the file: a node is reported if everything above it is
the file, a container with its members, or conditional compilation. Which nodes these are is said by the
ancestors alone, and how many records a node has by its kind.
-/

namespace SwiftOutline

open SwiftOutline.Tree Place NodeKind List

/-! ## Reachable nodes -/

/-- The kinds of node through which declarations stay members of the file. -/
def NodeKind.isPassage : NodeKind → Bool
  | sourceFile | memberBlock | ifConfigDecl | ifConfigClause => true
  | k => k.isContainer

/-- The kinds of node that hold code. -/
def NodeKind.isBody : NodeKind → Bool
  | codeBlock | accessorBlock | statement | expr => true
  | _ => false

theorem NodeKind.isPassage_of_isBody {k : NodeKind} (h : k.isBody = true) : k.isPassage = false := by
  cases k <;> first | rfl | cases h

namespace Place

/-- Nothing but passages stands above the node. -/
def isReachable (p : Place) : Bool := p.above.all fun t => t.kind?.any isPassage

theorem collectPolicy_eq_descend_iff (p : Place) :
    collectPolicy p = .descend ↔ p.kind?.any isPassage = true := by
  unfold collectPolicy
  cases p.kind? with
  | none => simp
  | some k => cases k <;> simp [isPassage, isContainer]

/-- The walk for declarations comes to the reachable nodes. -/
theorem isReached_collectPolicy (p : Place) : isReached collectPolicy p = p.isReachable := by
  obtain ⟨t, above⟩ := p
  unfold isReached isReachable
  induction above with
  | nil => rfl
  | cons u above ih =>
    have hpolicy : decide (collectPolicy ⟨u, above⟩ = .descend) = u.kind?.any isPassage := by
      rw [Bool.eq_iff_iff, decide_eq_true_eq]
      exact collectPolicy_eq_descend_iff ⟨u, above⟩
    rw [goesOn_cons, hpolicy, ih, all_cons]

/-- The reachable nodes of a tree, in source order. -/
def reachable (t : Tree) : List Place := (root t).nodes.filter isReachable

theorem visited_eq_reachable (t : Tree) : (root t).visited collectPolicy = reachable t := by
  rw [visited_eq_filter_nodes collectPolicy_ne_halt, reachable]
  exact filter_congr fun p _ => isReached_collectPolicy p

end Place

/-! ## Records by nodes -/

/-- The records of nodes: one for each binding of a variable declaration and for each element of a case
declaration, one for any other declaration, each sort in the order of the nodes. -/
def Outline.ofNodes (ps : List Place) : Outline where
  types := (ps.filter fun p => p.kind?.any isContainer).map containerRecord
  functions := (ps.filter (Place.isKind .functionDecl)).map functionRecord
  initializers := (ps.filter (Place.isKind .initializerDecl)).map initializerRecord
  deinitializers := (ps.filter (Place.isKind .deinitializerDecl)).map deinitializerRecord
  subscripts := (ps.filter (Place.isKind .subscriptDecl)).map subscriptRecord
  bindings := (ps.filter (Place.isKind .variableDecl)).flatMap fun p =>
    (p.childNodes.filter (Place.isKind .patternBinding)).map p.variableRecord
  typealiases := (ps.filter (Place.isKind .typealiasDecl)).map typealiasRecord
  associatedTypes := (ps.filter (Place.isKind .associatedTypeDecl)).map associatedTypeRecord
  enumCases := (ps.filter (Place.isKind .enumCaseDecl)).flatMap fun p =>
    (p.childNodes.filter (Place.isKind .enumCaseElement)).map p.enumCaseRecord
  imports := (ps.filter (Place.isKind .importDecl)).map importRecord
  operators := (ps.filter (Place.isKind .operatorDecl)).map operatorRecord
  precedenceGroups := (ps.filter (Place.isKind .precedenceGroupDecl)).map precedenceGroupRecord
  conditionalBlocks := (ps.filter (Place.isKind .ifConfigDecl)).map conditionalRecord

section

variable {α β γ : Type}

theorem filterMap_map_some {f : β → Option γ} {g : α → β} {h : α → γ} (hfg : ∀ a, f (g a) = some (h a))
    (as : List α) : (as.map g).filterMap f = as.map h := by
  rw [filterMap_map, ← filterMap_eq_map]
  congr 1
  funext a
  exact hfg a

theorem filterMap_map_none {f : β → Option γ} {g : α → β} (hfg : ∀ a, f (g a) = none) (as : List α) :
    (as.map g).filterMap f = [] := by
  rw [filterMap_map, filterMap_eq_nil_iff]
  intro a _
  exact hfg a

variable {pick : Declaration → Option α} {test : Place → Bool}

/-- A sort of record that some nodes have and others have not. -/
theorem filterMap_flatMap_declarations {records : Place → List α}
    (h : ∀ p : Place, p.declarations.filterMap pick = if test p then records p else []) (ps : List Place) :
    (ps.flatMap declarations).filterMap pick = (ps.filter test).flatMap records := by
  induction ps with
  | nil => rfl
  | cons p ps ih =>
    rw [flatMap_cons, filterMap_append, ih, h p, filter_cons]
    split
    · rw [flatMap_cons]
    · rw [nil_append]

/-- A sort of record of which a node has at most one. -/
theorem filterMap_flatMap_declarations_one {record : Place → α}
    (h : ∀ p : Place, p.declarations.filterMap pick = if test p then [record p] else []) (ps : List Place) :
    (ps.flatMap declarations).filterMap pick = (ps.filter test).map record := by
  rw [filterMap_flatMap_declarations h, map_eq_flatMap]

end

/-- **Sorting the records of nodes is sorting the nodes.** -/
theorem Outline.ofDeclarations_flatMap (ps : List Place) :
    ofDeclarations (ps.flatMap Place.declarations) = ofNodes ps := by
  have hkind (k : NodeKind) (p : Place) : p.isKind k = (p.kind? == some k) := rfl
  unfold ofDeclarations ofNodes
  congr 1
  -- the two sorts of which a node may have several records
  case e_bindings | e_enumCases =>
    apply filterMap_flatMap_declarations
    intro p
    rw [hkind, Place.declarations]
    rcases p.kind? with _ | k
    · rfl
    · cases k <;> first
        | rfl
        | exact filterMap_map_some (by intro b; rfl) _
        | exact filterMap_map_none (by intro b; rfl) _
  all_goals
    apply filterMap_flatMap_declarations_one
    intro p
    simp only [hkind, Place.declarations]
    rcases p.kind? with _ | k
    · rfl
    · cases k <;> first | rfl | exact filterMap_map_none (by intro b; rfl) _

/-! ## Records in source order -/

/-- The headers of one sort of record are taken from those of all records, in the same order. -/
theorem map_filterMap_sublist {α : Type} {pick : Declaration → Option α} {head : α → Header}
    (h : ∀ d r, pick d = some r → head r = d.header) (ds : List Declaration) :
    ((ds.filterMap pick).map head).Sublist (ds.map Declaration.header) := by
  induction ds with
  | nil => exact List.Sublist.refl _
  | cons d ds ih =>
    rw [filterMap_cons, List.map_cons]
    cases hpick : pick d with
    | none => exact ih.cons _
    | some r =>
      simp only [List.map_cons]
      rw [h d r hpick]
      exact ih.cons_cons _

theorem Outline.headers_sublist (ds : List Declaration) (k : DeclarationKind) :
    ((ofDeclarations ds).headers k).Sublist (ds.map Declaration.header) := by
  cases k
  all_goals
    apply map_filterMap_sublist
    intro d r hr
    cases d <;> cases hr
    rfl

namespace Place

variable {source : String} {tree : Tree}

theorem declares_of_reachable (htree : tree.IsPart source) {p : Place} (hp : p ∈ reachable tree)
    (hdecl : p.kind?.any isDecl = true) : p.tree.Declares source :=
  ⟨htree.contains (contains_of_mem_nodesOfTree (mem_filter.mp hp).1), hdecl⟩

/-- The records of reachable nodes begin one after another. -/
theorem pairwise_start_declarations (htree : tree.IsPart source) :
    ((reachable tree).flatMap declarations).Pairwise fun a b => a.header.span.start ≤
      b.header.span.start := by
  obtain ⟨tokens, htokens, hin⟩ := htree.tokens
  have hordered := (Token.ordered_of_tokenize htokens).sublist hin.sublist
  have hnodes : (reachable tree).Pairwise StartsBefore :=
    (pairwise_start_nodesOfTree tree hordered).sublist filter_sublist
  have hdeclares : ∀ p ∈ reachable tree, ∀ d ∈ p.declarations, p.tree.tokens ≠ [] := by
    intro p hp d hd
    exact (declares_of_reachable htree hp (isDecl_of_mem_declarations hd)).tokens_ne_nil
  rw [pairwise_flatMap]
  constructor
  · -- the records of one node have its span
    intro p _
    refine List.Pairwise.imp_of_mem ?_ (pairwise_of_forall (R := fun _ _ => True) fun _ _ => trivial)
    intro a b ha hb _
    have hspan := (header_of_mem_declarations ha).1.trans (header_of_mem_declarations hb).1.symm
    exact Nat.le_of_eq (congrArg Span.start hspan)
  · refine hnodes.imp_of_mem ?_
    intro p q hp hq hstarts a ha b hb
    rw [(header_of_mem_declarations ha).1, (header_of_mem_declarations hb).1]
    exact hstarts (hdeclares p hp a ha) (hdeclares q hq b hb)

/-- **The records of a sort begin one after another.** -/
theorem pairwise_start_headers (htree : tree.IsPart source) (k : DeclarationKind) :
    ((root tree).collect.headers k).Pairwise fun a b => a.span.start ≤ b.span.start := by
  refine List.Pairwise.sublist (Outline.headers_sublist _ k) ?_
  rw [pairwise_map, visited_eq_reachable]
  exact pairwise_start_declarations htree

/-- A record of an outline is that of a reachable declaration. -/
theorem exists_declaration_of_mem_headers {k : DeclarationKind} {h : Header}
    (hh : h ∈ (root tree).collect.headers k) : ∃ p ∈ reachable tree, ∃ d ∈ p.declarations, h = d.header := by
  obtain ⟨d, hd, rfl⟩ := mem_map.mp ((Outline.headers_sublist _ k).subset hh)
  rw [visited_eq_reachable] at hd
  obtain ⟨p, hp, hd⟩ := mem_flatMap.mp hd
  exact ⟨p, hp, d, hd, rfl⟩

/-- Two declarations of a source with the same span are the same node. -/
theorem eq_of_span_eq (htree : tree.IsPart source) {p q : Place} (hp : p ∈ (root tree).nodes)
    (hq : q ∈ (root tree).nodes) (hpdecl : p.kind?.any isDecl = true)
    (hqdecl : q.kind?.any isDecl = true) (hspan : q.span = p.span) : q = p := by
  have hp' : p.tree.Declares source := ⟨htree.contains (contains_of_mem_nodesOfTree hp), hpdecl⟩
  have hq' : q.tree.Declares source := ⟨htree.contains (contains_of_mem_nodesOfTree hq), hqdecl⟩
  replace hspan : q.tree.span = p.tree.span := hspan
  have hwithin : q.tree.span.isWithin p.tree.span = true := hspan ▸ Span.isWithin_refl _
  have hwithin' : p.tree.span.isWithin q.tree.span = true := hspan ▸ Span.isWithin_refl _
  rcases nodes_cases hp hq with heq | hencloses | hencloses | hapart
  · exact heq
  · rw [hp'.not_isWithin_of_encloses hq' hencloses] at hwithin'
    cases hwithin'
  · rw [hq'.not_isWithin_of_encloses hp' hencloses] at hwithin
    cases hwithin
  · rw [hq'.not_isWithin_of_apart hp' htree hapart] at hwithin
    cases hwithin

/-- What stands below code is not reachable. -/
theorem isReachable_of_isBody {p : Place} {t : Tree} (ht : t ∈ p.above)
    (hbody : t.kind?.any isBody = true) : p.isReachable = false := by
  rw [Bool.eq_false_iff]
  intro hall
  have hpassage := all_eq_true.mp hall t ht
  cases hkind : t.kind? with
  | none =>
    rw [hkind] at hbody
    cases hbody
  | some k =>
    rw [hkind] at hbody hpassage
    rw [Option.any_some, isPassage_of_isBody hbody] at hpassage
    cases hpassage

end Place

/-- The outline of a tree has just its reachable declarations. -/
structure Tree.ReportsReachable (tree : Tree) : Prop where
  /-- Each sort has the records of the reachable nodes of its kinds, in the order of the tree. -/
  records : (root tree).collect = Outline.ofNodes ((root tree).nodes.filter isReachable)
  /-- They begin one after another. -/
  order : ∀ k, ((root tree).collect.headers k).Pairwise fun a b => a.span.start ≤ b.span.start
  /-- No record has the span of a declaration that stands below code. -/
  code : ∀ p ∈ (root tree).nodes, p.kind?.any isDecl = true →
    (∃ t ∈ p.above, t.kind?.any isBody = true) →
    ∀ k, ∀ h ∈ (root tree).collect.headers k, h.span ≠ p.span

/-- **An outline reports exactly the reachable declarations, in source order**
(`Place.visited_eq_reachable`). -/
theorem outline_reports_reachable {source : String} {tree : Tree} (hparse : parseSource source = .ok tree) :
    tree.ReportsReachable := by
  have htree := isPart_of_parseSource hparse
  refine ⟨?_, Place.pairwise_start_headers htree, ?_⟩
  · rw [Place.collect, Outline.ofDeclarations_flatMap, Place.visited_eq_reachable, Place.reachable]
  · rintro p hp hdecl ⟨t, ht, hbody⟩ k h hh hspan
    obtain ⟨q, hq, d, hd, rfl⟩ := Place.exists_declaration_of_mem_headers hh
    obtain ⟨hq, hreachable⟩ := mem_filter.mp hq
    -- the record's node would be the one below code
    have heq := Place.eq_of_span_eq htree hp hq hdecl (Place.isDecl_of_mem_declarations hd)
      ((Place.header_of_mem_declarations hd).1.symm.trans hspan)
    rw [heq, Place.isReachable_of_isBody ht hbody] at hreachable
    cases hreachable

/-- Two bindings in a clause of a class are reported, and a structure in the body of a method is not. -/
theorem outline_reports_reachable_clause : ∃ tree, parseSource
      "class A \x7b\n#if B\nvar x, y: Int\n#endif\nfunc f() \x7b struct C \x7b\x7d \x7d\n\x7d" = .ok tree ∧
    tree.ReportsReachable ∧
    (Place.root tree).collect.types.map (·.header.name) = ["A"] ∧
    (Place.root tree).collect.bindings.map (·.header.name) = ["x", "y"] ∧
    ((Place.root tree).nodes.filter fun p => p.kind?.any NodeKind.isDecl &&
      p.above.any fun t => t.kind?.any NodeKind.isBody).map Place.text = ["struct C \x7b\x7d"] :=
  (exists_ok_of_test (by decide +kernel)).imp fun _ h => ⟨h.1, outline_reports_reachable h.1, h.2⟩

end SwiftOutline
