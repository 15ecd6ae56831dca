import SwiftOutline.Proofs.Declaration.Positions
import SwiftOutline.Proofs.Descriptor.Height
import SwiftOutline.Proofs.Descriptor.Restated
import SwiftOutline.Proofs.Grammar.Counter
import SwiftOutline.Proofs.Grammar.Parentheses

/-!
# `Nesting` — how deep a parse can go

A tree that was parsed has no more levels than the limit. The descriptors that are read off it are no
higher, and a declaration in it has fewer containers and blocks of conditional compilation above it,
since each of these is a level of its own and so is the declaration.
-/

namespace SwiftOutline

open SwiftOutline.Tree

/-! ## Trees -/

variable {source : String} {tree : Tree}

/-- The root of a parse is no level. -/
theorem levels_of_parseWith {root : NodeKind} {rule : Calling} {late : Bool}
    (hroot : (root.isLevel || root.isType) = false) (hrule : Schematic 0 late rule)
    (h : parseWith root (rule (Rule.type nestingLimit) (Rule.item nestingLimit)) source = .ok tree) :
    tree.levels ≤ nestingLimit := by
  obtain ⟨hlevel, htype⟩ := Bool.or_eq_false_iff.mp hroot
  obtain ⟨g, hg, -, hread⟩ := hrule
  have hrule : g.read (Rule.type nestingLimit) (Rule.item nestingLimit) = rule _ _ := hread _ _
  rw [← hrule] at h
  obtain ⟨ts, trees, rest, -, hok, rfl⟩ := parseWith_eq_ok h
  refine levels_node_le hlevel (fun hkind => ?_)
    (Rule.shallow_read (Rule.shallow_type _) (Rule.shallow_item _) hg hok)
  rw [htype] at hkind
  cases hkind

theorem levels_of_parseSource (h : parseSource source = .ok tree) : tree.levels ≤ nestingLimit :=
  levels_of_parseWith rfl Schematic.sourceItems h

theorem levels_of_parseType (h : parseType source = .ok tree) : tree.levels ≤ nestingLimit :=
  levels_of_parseWith rfl Schematic.soleType h

/-! ## Descriptors -/

/-- A descriptor that is read off a part of a tree is no higher than the tree may be. -/
theorem height_decompose_of_contains (htree : tree.levels ≤ nestingLimit) {q : Place}
    (hq : tree.Contains q.tree) : q.decompose.height ≤ nestingLimit := by
  refine Nat.le_trans q.height_decompose_le_max (Nat.max_le.mpr ⟨by decide, ?_⟩)
  exact Nat.le_trans hq.levels_le htree

theorem Place.Describes.height_le {d : Descriptor} (h : Describes tree d)
    (htree : tree.levels ≤ nestingLimit) : d.height ≤ nestingLimit := by
  rcases h with ⟨q, hq, rfl⟩ | ⟨typeText, rfl⟩
  · exact height_decompose_of_contains htree hq
  · rw [Descriptor.height_ofType]
    decide

/-! ## Ancestors -/

namespace Place

/-- The containers and the blocks of conditional compilation above a node. -/
def enclosing (p : Place) : List Tree :=
  p.above.filter fun t => t.kind?.any fun k => k.isContainer || k == .ifConfigDecl

theorem enclosing_down (p : Place) (c : Tree) :
    (p.down c).enclosing.length ≤
      p.enclosing.length + if p.tree.kind?.any NodeKind.isLevel then 1 else 0 := by
  unfold enclosing down
  rw [List.filter_cons]
  split
  · next hkind =>
    -- both sorts of node are declarations, and so levels
    have hlevel : p.tree.kind?.any NodeKind.isLevel = true := by
      refine NodeKind.any_imp (fun k hkind => ?_) hkind
      rcases Bool.or_eq_true_iff.mp hkind with hkind | hkind
      · exact NodeKind.isLevel_of_isDecl (NodeKind.isDecl_of_isContainer hkind)
      · rw [beq_iff_eq.mp hkind]
        rfl
    rw [if_pos hlevel]
    exact Nat.le_refl _
  · omega

/-- **What encloses a node are levels above those of the node**, along every way down from another one. -/
theorem enclosing_add_levels_le {policy : Place → Verdict} (hpolicy : ∀ p, policy p ≠ .halt) {p q : Place}
    (h : q ∈ p.visited policy) :
    q.enclosing.length + q.tree.levels ≤ p.enclosing.length + p.tree.levels := by
  refine visited_induction hpolicy
    (motive := fun p q => q.enclosing.length + q.tree.levels ≤ p.enclosing.length + p.tree.levels)
    (fun p => Nat.le_refl _) ?_ h
  intro p c q _ _ hc _ ih
  have hdown := p.enclosing_down c
  refine Nat.le_trans ih ?_
  show (p.down c).enclosing.length + c.levels ≤ _
  split at hdown
  · next hlevel =>
    have hlt := levels_lt_of_mem_children hc hlevel
    omega
  · have hle := levels_le_of_mem_children hc
    omega

/-- A declaration has fewer enclosing nodes than there are levels. -/
theorem enclosing_lt {tree : Tree} (htree : tree.levels ≤ nestingLimit) {p : Place} (hp : p ∈ reachable tree)
    {d : Declaration} (hd : d ∈ p.declarations) : p.enclosing.length < nestingLimit := by
  rw [← visited_eq_reachable] at hp
  have hle : p.enclosing.length + p.tree.levels ≤ 0 + tree.levels :=
    enclosing_add_levels_le collectPolicy_ne_halt hp
  have hlevel : p.tree.kind?.any NodeKind.isLevel = true :=
    NodeKind.any_imp (fun _ => NodeKind.isLevel_of_isDecl) (isDecl_of_mem_declarations hd)
  have hpos := levels_pos (.inl hlevel)
  omega

end Place

/-! ## The bounds together -/

/-- What is read off a file is bounded: the height of its descriptors, and the containers and `#if`
blocks around the declaration of each record. -/
structure Outline.NestsWithin (source : String) (o : Outline) : Prop where
  descriptors : ∀ d ∈ o.descriptors, d.height ≤ nestingLimit
  records : ∀ k, ∀ h ∈ o.headers k, ∃ tree, parseSource source = .ok tree ∧ ∃ p ∈ Place.reachable tree,
    ∃ d ∈ p.declarations, h = d.header.located source ∧ p.enclosing.length ≤ 255

open Counted in
/-- The limit bounds whatever is read. -/
structure NestingBounded : Prop where
  limit : nestingLimit = 256
  parts : ∀ source tree, parseSource source = .ok tree ∨ parseType source = .ok tree →
    ∀ q : Place, tree.Contains q.tree → q.decompose.height ≤ nestingLimit
  types : ∀ text d, decomposeType text = .ok d → d.height ≤ nestingLimit
  files : ∀ source o, outlineOf source = .ok o → o.NestsWithin source
  /-- A parser that counts its open calls never counts further than the limit, and finds the counter
  after each call as it was before, also if the call fails. -/
  counted : ∃ s : Schemes, ∀ beyond,
    (∀ d n, d ≤ nestingLimit → nestingLimit < d + n →
      Settles d (Rule.type (nestingLimit - d)) (s.calls beyond n).1 ∧
      Settles d (Rule.item (nestingLimit - d)) (s.calls beyond n).2) ∧
    Settles 0 Rule.sourceItems (s.outset beyond s.file) ∧ Settles 0 Rule.soleType (s.outset beyond s.sole)
  /-- A name in parentheses is a type up to the limit, and refused beyond it at the first token that
  would go deeper. -/
  parentheses : ∀ n, ((∃ tree, parseType (parenthesized n) = .ok tree) ↔ n ≤ 255) ∧
    (255 < n → parseType (parenthesized n) = .error (.nestingTooDeep nestingLimit 256))

/-- **Nesting is bounded, and exactly by the limit.** -/
theorem nesting_bounded : NestingBounded := by
  refine ⟨rfl, ?_, ?_, ?_, ?_, ?_⟩
  · intro source tree htree q hq
    exact height_decompose_of_contains (htree.elim levels_of_parseSource levels_of_parseType) hq
  · intro text d hd
    obtain ⟨tree, hparse, hdescribes⟩ := parseType_of_decomposeType hd
    exact hdescribes.height_le (levels_of_parseType hparse)
  · intro source o ho
    obtain ⟨tree, hparse, rfl⟩ := parseSource_of_outlineOf ho
    have htree := levels_of_parseSource hparse
    constructor
    · intro d hd
      rw [Outline.descriptors_locate] at hd
      exact (Place.describes_of_collect hd).height_le htree
    · intro k h hh
      obtain ⟨p, hp, d, hd, rfl⟩ := exists_declaration_of_mem_locate hh
      exact ⟨tree, hparse, p, hp, d, hd, rfl, Nat.le_of_lt_succ (Place.enclosing_lt htree hp hd)⟩
  · obtain ⟨s⟩ := nonempty_schemes
    exact ⟨s, fun beyond => ⟨fun d n => s.settles_calls beyond, s.settles_file beyond, s.settles_sole beyond⟩⟩
  · intro n
    refine ⟨⟨?_, fun h => parseType_parenthesized (Nat.lt_succ_of_le h)⟩,
      fun h => parseType_parenthesized_deep h⟩
    rintro ⟨tree, htree⟩
    by_contra hdeep
    have hrefused := parseType_parenthesized_deep (show nestingLimit ≤ n from Nat.lt_of_not_le hdeep)
    rw [hrefused] at htree
    cases htree

/-- Parentheses at the limit and beyond it, and a method with a parameter that is nested four deep. -/
theorem nesting_bounded_method : (∃ tree, parseType (parenthesized 255) = .ok tree) ∧
    parseType (parenthesized 256) = .error (.nestingTooDeep 256 256) ∧
    ∃ source o, source =
      "#if A\nstruct S \x7b func f(x: Result<(A) -> (B, (C, D)), E>) \x7b\x7d \x7d\n#endif" ∧
      outlineOf source = .ok o ∧ o.NestsWithin source ∧ (∃ d ∈ o.descriptors, d.height = 4) ∧
      o.headers .function ≠ [] := by
  have hparens := nesting_bounded.parentheses
  refine ⟨(hparens 255).1.mpr (Nat.le_refl _), (hparens 256).2 (by decide), ?_⟩
  exact (exists_ok_of_test (by decide +kernel)).elim fun o h =>
    ⟨_, o, rfl, h.1, nesting_bounded.files _ o h.1, h.2⟩

end SwiftOutline
