import SwiftOutline.Proofs.Declaration.Moved
import SwiftOutline.Proofs.Grammar.Excerpt
import SwiftOutline.Proofs.Tree.Visit

/-!
# `Enclosure` — declarations in declarations

A declaration lies in another one if its node does, and the spans tell: the span of a declaration is
never that of a declaration around it, because the text of either is a source with one declaration and so
has one tree.
-/

namespace SwiftOutline

open SwiftOutline.Tree NodeKind List

namespace Place

/-! ## Owners -/

theorem find?_ofAncestors (above : List Tree) :
    ((ofAncestors above).find? fun a => a.kind?.any isContainer).map toOwner =
      (above.find? fun t => t.kind?.any isContainer).map fun t => (root t).toOwner := by
  induction above with
  | nil => rfl
  | cons t above ih =>
    rw [ofAncestors, List.find?_cons, List.find?_cons]
    cases h : t.kind?.any isContainer with
    | true => rw [show (Place.mk t above).kind? = t.kind? from rfl, h]; rfl
    | false => rw [show (Place.mk t above).kind? = t.kind? from rfl, h]; exact ih

theorem owner?_eq (p : Place) :
    p.owner? = (p.above.find? fun t => t.kind?.any isContainer).map fun t => (root t).toOwner :=
  find?_ofAncestors p.above

theorem toOwner_relabel {g : Token → Token} {t : Tree} (hg : Token.Faithful g t.tokens) :
    (root (t.relabel g)).toOwner = (root t).toOwner := by
  show Owner.mk _ _ _ _ = Owner.mk _ _ _ _
  rw [show (root (t.relabel g)).tree = t.relabel g from rfl, attributes_relabel hg, modifiers_relabel hg,
    keyword_relabel hg, declaredName_relabel hg]
  rfl

variable {p : Place}

/-- **The owner of a declaration that is read elsewhere** is its own, or that of where it is read. -/
theorem owner?_moved {g : Token → Token} (hg : ∀ t ∈ p.above, Token.Faithful g t.tokens)
    (t : Tree) (A : List Tree) : (p.moved g A).owner? = p.owner?.or (owner? ⟨t, A⟩) := by
  rw [owner?_eq, above_moved, List.find?_append, Option.map_or, owner?_eq, owner?_eq, List.find?_map]
  congr 1
  rw [show (fun t : Tree => t.kind?.any isContainer) ∘ Tree.relabel g =
    fun t => t.kind?.any isContainer from funext fun t => by rw [Function.comp, kind?_relabel],
    Option.map_map]
  refine Option.map_congr ?_
  intro u hu
  exact toOwner_relabel (hg u (mem_of_find?_eq_some hu))

/-! ## What records tell -/

/-- All records of a node have its span and its owner. -/
theorem header_of_mem_declarations {d : Declaration} (h : d ∈ p.declarations) :
    d.header.span = p.span ∧ d.header.owner = p.owner? := by
  unfold declarations at h
  split at h
  case h_11 =>
    obtain ⟨b, -, rfl⟩ := mem_map.mp h
    exact ⟨rfl, rfl⟩
  case h_14 =>
    obtain ⟨e, -, rfl⟩ := mem_map.mp h
    exact ⟨rfl, rfl⟩
  case h_19 => cases h
  all_goals
    rw [mem_singleton.mp h]
    exact ⟨rfl, rfl⟩

/-- Only declarations have records. -/
theorem isDecl_of_mem_declarations {d : Declaration} (h : d ∈ p.declarations) :
    p.kind?.any isDecl = true := by
  unfold declarations at h
  split at h
  case h_19 => cases h
  all_goals
    next hkind =>
    rw [hkind]
    rfl

/-- Only containers have container records. -/
theorem isContainer_of_mem_declarations {c : ContainerRecord}
    (h : Declaration.container c ∈ p.declarations) : p.kind?.any isContainer = true := by
  unfold declarations at h
  split at h
  iterate 6 next hkind => rw [hkind]; rfl
  all_goals simp at h

theorem containerRecord_mem_declarations (h : p.kind?.any isContainer = true) :
    Declaration.container p.containerRecord ∈ p.declarations := by
  cases hkind : p.kind? with
  | none =>
    rw [hkind] at h
    cases h
  | some k =>
    rw [hkind] at h
    unfold declarations
    rw [hkind]
    cases k <;> first | exact mem_singleton_self _ | cases h

end Place

/-! ## Spans of declarations -/

namespace Tree

variable {t u : Tree}

theorem Contains.relabel (h : t.Contains u) (g : Token → Token) : (t.relabel g).Contains (u.relabel g) := by
  induction h with
  | self => exact .self
  | child _ hc ih =>
    refine ih.child ?_
    rw [children_relabel]
    exact mem_map_of_mem hc

theorem Contains.sizeOf_le (h : t.Contains u) : sizeOf u ≤ sizeOf t := by
  induction h with
  | self => exact Nat.le_refl _
  | child _ hc ih => exact Nat.le_trans (Nat.le_of_lt (sizeOf_lt_of_mem_children hc)) ih

/-- No tree has the shape of a tree below it. -/
theorem Encloses.relabel_ne (h : t.Encloses u) (g : Token → Token) : t.relabel g ≠ u.relabel g := by
  obtain ⟨c, hc, hu⟩ := h
  have hle := (hu.relabel g).sizeOf_le
  have hlt : sizeOf (c.relabel g) < sizeOf (t.relabel g) := by
    refine sizeOf_lt_of_mem_children ?_
    rw [children_relabel]
    exact mem_map_of_mem hc
  intro heq
  rw [heq] at hlt
  omega

/-- The tree was read from a part of the source as a declaration. -/
structure Declares (source : String) (t : Tree) : Prop where
  isPart : t.IsPart source
  isDecl : t.kind?.any isDecl = true

namespace Declares

variable {source : String} {t u whole : Tree}

theorem exists_node (h : t.Declares source) : ∃ kind cs, t = .node kind cs ∧ kind.isDecl = true := by
  have hdecl := h.isDecl
  cases t with
  | token t => cases hdecl
  | node kind cs => exact ⟨kind, cs, rfl, hdecl⟩

theorem tokens_ne_nil (h : t.Declares source) : t.tokens ≠ [] := by
  obtain ⟨kind, cs, rfl, hkind⟩ := h.exists_node
  exact tokens_ne_nil_of_declaration hkind h.isPart.every.here

theorem ordered (h : t.Declares source) : Token.Ordered t.tokens := by
  obtain ⟨tokens, htokens, hin⟩ := h.isPart.tokens
  exact (Token.ordered_of_tokenize htokens).sublist hin.sublist

/-- **The text of a declaration is a source with that declaration.** -/
theorem parseSource_text (h : t.Declares source) {first : Token} {rest : List Token}
    (htokens : t.tokens = first :: rest) :
    parseSource t.text = .ok (.node .sourceFile [t.relabel (Token.excerpt first)]) := by
  obtain ⟨kind, cs, rfl, hkind⟩ := h.exists_node
  exact SwiftOutline.parseSource_text h.isPart hkind htokens

theorem isWithin (ht : t.Declares source) (hu : u.Declares source) (h : t.Contains u) :
    u.span.isWithin t.span = true :=
  ht.ordered.isWithin_spanOf h.tokens_isInfix.sublist hu.tokens_ne_nil

/-- A declaration lies not in the span of a declaration below it. -/
theorem not_isWithin_of_encloses (ht : t.Declares source) (hu : u.Declares source) (h : t.Encloses u) :
    t.span.isWithin u.span = false := by
  rw [← Bool.not_eq_true]
  intro hwithin
  have htokens := ht.ordered.eq_of_isWithin_spanOf h.contains.tokens_isInfix hu.tokens_ne_nil hwithin
  -- with the same tokens the two have the same text, so their texts have the same tree
  obtain ⟨first, rest, hfirst⟩ := exists_cons_of_ne_nil hu.tokens_ne_nil
  have htparse := ht.parseSource_text (htokens ▸ hfirst)
  have huparse := hu.parseSource_text hfirst
  rw [Tree.text, ← htokens, ← Tree.text, huparse] at htparse
  injection htparse with htree
  injection htree with _ htrees
  injection htrees with heq _
  exact h.relabel_ne _ heq.symm

theorem not_isWithin_of_apart (ht : t.Declares source) (hu : u.Declares source) (hwhole : whole.IsPart source)
    (h : Apart whole t u) : t.span.isWithin u.span = false := by
  obtain ⟨tokens, htokens, hin⟩ := hwhole.tokens
  have hordered := (Token.ordered_of_tokenize htokens).sublist hin.sublist
  rcases h with h | h
  · exact ((hordered.sublist h).not_isWithin_spanOf ht.tokens_ne_nil hu.tokens_ne_nil).1
  · exact ((hordered.sublist h).not_isWithin_spanOf hu.tokens_ne_nil ht.tokens_ne_nil).2

end Declares

end Tree

/-! ## Declarations in a span -/

/-- The first span lies in the second and is not all of it. -/
def Span.isInside (a b : Span) : Bool := a.isWithin b && a != b

theorem Span.isInside_iff {a b : Span} : a.isInside b = true ↔ a.isWithin b = true ∧ a ≠ b := by
  rw [isInside, Bool.and_eq_true, bne_iff_ne]

theorem NodeKind.any_imp {p q : NodeKind → Bool} (hpq : ∀ k, p k = true → q k = true) {k : Option NodeKind}
    (h : k.any p = true) : k.any q = true := by
  cases k with
  | none => cases h
  | some k => exact hpq k h

theorem NodeKind.any_isDecl {k : Option NodeKind} (h : k.any isContainer = true) :
    k.any isDecl = true :=
  any_imp (fun _ => isDecl_of_isContainer) h

namespace Place

variable {source : String} {p q r : Place}

theorem declares_of_visited (hp : p.tree.IsPart source) (hq : q ∈ p.visited collectPolicy)
    (hdecl : q.kind?.any isDecl = true) : q.tree.Declares source :=
  ⟨hp.contains (contains_of_visited collectPolicy_ne_halt hq), hdecl⟩

/-- A walk that comes to a declaration enters no declaration in its span before or after it. -/
theorem visited_split_declaration (hp : p.tree.IsPart source) (hq : q ∈ p.visited collectPolicy)
    (hdecl : q.kind?.any isDecl = true) :
    ∃ before after, p.visited collectPolicy = before ++ q.visited collectPolicy ++ after ∧
      ∀ r ∈ before ++ after, r.kind?.any isDecl = true → r.span.isWithin q.span = false := by
  obtain ⟨before, after, hsplit, houtside⟩ := visited_split collectPolicy_ne_halt hq
  refine ⟨before, after, hsplit, ?_⟩
  intro r hr hrdecl
  have hmem : r ∈ p.visited collectPolicy := by
    rw [hsplit]
    rcases mem_append.mp hr with hr | hr
    · exact mem_append_left _ (mem_append_left _ hr)
    · exact mem_append_right _ hr
  have hr' := declares_of_visited hp hmem hrdecl
  have hq' := declares_of_visited hp hq hdecl
  rcases houtside r hr with hencloses | hapart
  · exact hr'.not_isWithin_of_encloses hq' hencloses
  · exact hr'.not_isWithin_of_apart hq' hp hapart

/-- A declaration in the span of another is one that the walk from the other enters. -/
theorem visited_of_isWithin (hp : p.tree.IsPart source) (hq : q ∈ p.visited collectPolicy)
    (hqdecl : q.kind?.any isDecl = true) (hr : r ∈ p.visited collectPolicy)
    (hrdecl : r.kind?.any isDecl = true) (hwithin : r.span.isWithin q.span = true) :
    r ∈ q.visited collectPolicy := by
  obtain ⟨before, after, hsplit, houtside⟩ := visited_split_declaration hp hq hqdecl
  rw [hsplit, append_assoc, mem_append, mem_append] at hr
  rcases hr with hr | hr | hr
  · rw [houtside r (mem_append_left _ hr) hrdecl] at hwithin
    cases hwithin
  · exact hr
  · rw [houtside r (mem_append_right _ hr) hrdecl] at hwithin
    cases hwithin

theorem isWithin_of_visited (hp : p.tree.IsPart source) (hpdecl : p.kind?.any isDecl = true)
    (hq : q ∈ p.visited collectPolicy) (hqdecl : q.kind?.any isDecl = true) :
    q.span.isWithin p.span = true :=
  Declares.isWithin ⟨hp, hpdecl⟩ (declares_of_visited hp hq hqdecl)
    (contains_of_visited collectPolicy_ne_halt hq)

/-- **The records in the span of a declaration** are those that a walk from it finds. -/
theorem filter_declarations (hp : p.tree.IsPart source) (hq : q ∈ p.visited collectPolicy)
    (hdecl : q.kind?.any isDecl = true) :
    (((p.visited collectPolicy).flatMap declarations).filter fun d => d.header.span.isWithin q.span) =
      (q.visited collectPolicy).flatMap declarations := by
  obtain ⟨before, after, hsplit, houtside⟩ := visited_split_declaration hp hq hdecl
  have hnone : ∀ rs : List Place, (∀ r ∈ rs, r ∈ before ++ after) →
      ((rs.flatMap declarations).filter fun d => d.header.span.isWithin q.span) = [] := by
    intro rs hrs
    rw [filter_eq_nil_iff]
    intro d hd
    obtain ⟨r, hr, hd⟩ := mem_flatMap.mp hd
    rw [(header_of_mem_declarations hd).1, houtside r (hrs r hr) (isDecl_of_mem_declarations hd)]
    exact Bool.false_ne_true
  have hall : (((q.visited collectPolicy).flatMap declarations).filter
      fun d => d.header.span.isWithin q.span) = (q.visited collectPolicy).flatMap declarations := by
    rw [filter_eq_self]
    intro d hd
    obtain ⟨r, hr, hd⟩ := mem_flatMap.mp hd
    rw [(header_of_mem_declarations hd).1]
    exact isWithin_of_visited (hp.contains (contains_of_visited collectPolicy_ne_halt hq)) hdecl hr
      (isDecl_of_mem_declarations hd)
  rw [hsplit, flatMap_append, flatMap_append, filter_append, filter_append, hall,
    hnone before fun r hr => mem_append_left _ hr, hnone after fun r hr => mem_append_right _ hr,
    nil_append, append_nil]

/-- A declaration below another lies inside its span. -/
theorem isInside_of_encloses (hq : q.tree.Declares source) (hr : r.tree.Declares source)
    (h : q.tree.Encloses r.tree) : r.span.isInside q.span = true := by
  have hwithin := hq.isWithin hr h.contains
  rw [Span.isInside_iff]
  refine ⟨hwithin, ?_⟩
  intro hspan
  have hnot := hq.not_isWithin_of_encloses hr h
  rw [show q.tree.span = r.tree.span from hspan.symm, Span.isWithin_refl] at hnot
  cases hnot

/-- **A declaration has an owner in the tree** if the span of some container holds its span and more. -/
theorem owner?_isSome_iff {t : Tree} (ht : t.IsPart source) (hr : r ∈ (root t).visited collectPolicy)
    (hrdecl : r.kind?.any isDecl = true) :
    r.owner?.isSome = true ↔ ∃ q ∈ (root t).visited collectPolicy,
      q.kind?.any isContainer = true ∧ r.span.isWithin q.span = true ∧ q.span ≠ r.span := by
  rw [owner?_eq, Option.isSome_map, List.find?_isSome]
  constructor
  · rintro ⟨u, hu, hcontainer⟩
    rcases visited_of_mem_above collectPolicy_ne_halt hr hu with hroot | ⟨q, hq, rfl, hencloses⟩
    · cases hroot
    · have hq' := declares_of_visited ht hq (NodeKind.any_isDecl hcontainer)
      have hr' := declares_of_visited ht hr hrdecl
      obtain ⟨hwithin, hne⟩ := Span.isInside_iff.mp (isInside_of_encloses hq' hr' hencloses)
      exact ⟨q, hq, hcontainer, hwithin, hne.symm⟩
  · rintro ⟨q, hq, hcontainer, hwithin, hne⟩
    have hin := visited_of_isWithin ht hq (NodeKind.any_isDecl hcontainer) hr hrdecl hwithin
    rcases mem_above_of_visited collectPolicy_ne_halt hin with rfl | habove
    · exact absurd rfl hne
    · exact ⟨q.tree, habove, hcontainer⟩

end Place

end SwiftOutline
