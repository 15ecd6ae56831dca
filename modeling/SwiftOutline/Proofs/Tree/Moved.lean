import SwiftOutline.Proofs.Tree.Relabel
import SwiftOutline.Tree.Attribute

/-!
# `Moved` — a tree that is read elsewhere

The same piece of source gives the same tree wherever it stands, up to what its tokens know of their
surroundings: their offsets, and the gap before the first of them. Neither shows in what is said of a tree
by its texts and kinds.
-/

namespace SwiftOutline

open List

/-! ## Changes that keep the text -/

namespace Token

/-- A change that keeps classes and texts, and of all but the first token also the gap before it. -/
structure Faithful (g : Token → Token) (ts : List Token) : Prop where
  kind : ∀ u ∈ ts, (g u).kind = u.kind
  text : ∀ u ∈ ts, (g u).text = u.text
  lead : ∀ u ∈ ts.tail, (g u).lead = u.lead
  newlineBefore : ∀ u ∈ ts.tail, (g u).newlineBefore = u.newlineBefore

/-- Changing nothing is faithful. -/
theorem faithful_id (ts : List Token) : Faithful id ts := by
  constructor
  all_goals exact fun _ _ => rfl

/-- What is behind the first token of a part is behind the first token of the whole. -/
theorem mem_tail_of_isInfix (h : us <:+: ts) {u : Token} (hu : u ∈ us.tail) : u ∈ ts.tail := by
  obtain ⟨before, after, rfl⟩ := h
  cases us with
  | nil => cases hu
  | cons v vs =>
    cases before with
    | nil => exact mem_append_left _ hu
    | cons w ws =>
      refine mem_append_left _ (mem_append_right _ ?_)
      exact mem_cons_of_mem _ hu

variable {g : Token → Token} {ts us : List Token}

/-- A part of a run is changed faithfully too (`mem_tail_of_isInfix`). -/
theorem Faithful.of_isInfix (h : Faithful g ts) (hus : us <:+: ts) : Faithful g us where
  kind u hu := h.kind u (hus.mem hu)
  text u hu := h.text u (hus.mem hu)
  lead u hu := h.lead u (mem_tail_of_isInfix hus hu)
  newlineBefore u hu := h.newlineBefore u (mem_tail_of_isInfix hus hu)

theorem Faithful.isWord (h : Faithful g ts) {u : Token} (hu : u ∈ ts) : (g u).isWord = u.isWord := by
  rw [Token.isWord, Token.isWord, h.kind u hu]

/-- **A faithful change keeps the text of a run.** The gap before the first token is no part of it. -/
theorem Faithful.joined_map (h : Faithful g ts) : joined (ts.map g) = joined ts := by
  cases ts with
  | nil => rfl
  | cons t ts =>
    rw [List.map_cons, joined, joined, h.text t mem_cons_self, map_map]
    congr 2
    refine map_congr_left ?_
    intro u hu
    show (g u).lead ++ (g u).text = u.lead ++ u.text
    rw [h.lead u hu, h.text u (mem_cons_of_mem _ hu)]

end Token

/-! ## Look-ups in a tree -/

namespace Tree

/-- A change of tokens keeps kinds, so all look-ups by kind go on as before. -/
@[simp] theorem kind?_relabel (g : Token → Token) (t : Tree) : (t.relabel g).kind? = t.kind? := by
  cases t with
  | token t => rw [relabel_token]; rfl
  | node k cs => rw [relabel_node]; rfl

@[simp] theorem isKind_relabel (g : Token → Token) (k : NodeKind) (t : Tree) :
    (t.relabel g).isKind k = t.isKind k := by
  rw [isKind, isKind, kind?_relabel]

@[simp] theorem isType_relabel (g : Token → Token) (t : Tree) : (t.relabel g).isType = t.isType := by
  rw [isType, isType, kind?_relabel]

@[simp] theorem isNode_relabel (g : Token → Token) (t : Tree) : (t.relabel g).isNode = t.isNode := by
  rw [isNode, isNode, kind?_relabel]

@[simp] theorem token?_relabel (g : Token → Token) (t : Tree) :
    (t.relabel g).token? = t.token?.map g := by
  cases t with
  | token t => rw [relabel_token]; rfl
  | node k cs => rw [relabel_node]; rfl

@[simp] theorem children_relabel (g : Token → Token) (t : Tree) :
    (t.relabel g).children = t.children.map (relabel g) := by
  cases t with
  | token t => rw [relabel_token]; rfl
  | node k cs => rw [relabel_node]; rfl

/-- The tokens among the children are the changed ones (`token?_relabel`). -/
@[simp] theorem childTokens_relabel (g : Token → Token) (t : Tree) :
    (t.relabel g).childTokens = t.childTokens.map g := by
  rw [childTokens, children_relabel, filterMap_map, childTokens, map_filterMap]
  congr 1
  funext c
  exact token?_relabel g c

@[simp] theorem childNodes_relabel (g : Token → Token) (t : Tree) :
    (t.relabel g).childNodes = t.childNodes.map (relabel g) := by
  rw [childNodes, children_relabel, filter_map, childNodes]
  congr 1
  refine filter_congr ?_
  intro c _
  exact isNode_relabel g c

/-- The child of a kind is found at the same place (`isKind_relabel`). -/
@[simp] theorem child?_relabel (g : Token → Token) (k : NodeKind) (t : Tree) :
    (t.relabel g).child? k = (t.child? k).map (relabel g) := by
  rw [child?, children_relabel, List.find?_map, child?]
  congr 2
  funext c
  exact isKind_relabel g k c

@[simp] theorem childType?_relabel (g : Token → Token) (t : Tree) :
    (t.relabel g).childType? = t.childType?.map (relabel g) := by
  rw [childType?, children_relabel, List.find?_map, childType?]
  congr 2
  funext c
  exact isType_relabel g c

/-! ### Tokens of parts -/

variable {c t : Tree}

/-- The tokens of a tree stand together among those of its forest. -/
theorem tokens_isInfix_of_mem {cs : List Tree} (h : c ∈ cs) : c.tokens <:+: forestTokens cs := by
  obtain ⟨before, after, rfl⟩ := append_of_mem h
  rw [forestTokens_append, forestTokens_cons]
  exact ⟨forestTokens before, forestTokens after, by rw [append_assoc]⟩

theorem tokens_isInfix_of_child (h : c ∈ t.children) : c.tokens <:+: t.tokens := by
  cases t with
  | token t => cases h
  | node k cs =>
    rw [tokens_node]
    exact tokens_isInfix_of_mem h

theorem mem_tokens_of_childTokens {u : Token} (h : u ∈ t.childTokens) : u ∈ t.tokens := by
  obtain ⟨c, hc, hu⟩ := mem_filterMap.mp h
  cases c with
  | node k cs => cases hu
  | token v =>
    cases hu
    exact (tokens_isInfix_of_child hc).mem (by rw [tokens_token]; exact mem_singleton_self u)

theorem mem_children_of_child? {k : NodeKind} (h : t.child? k = some c) : c ∈ t.children :=
  mem_of_find?_eq_some h

theorem kind?_of_child? {k : NodeKind} (h : t.child? k = some c) : c.kind? = some k := by
  have hkind : c.isKind k = true := List.find?_some h
  exact beq_iff_eq.mp hkind

theorem mem_children_of_childType? (h : t.childType? = some c) : c ∈ t.children :=
  mem_of_find?_eq_some h

/-- The tree holds another one: it is that tree, or one of its parts is or holds it. -/
inductive Contains (t : Tree) : Tree → Prop where
  | self : Contains t t
  | child {u c : Tree} (h : Contains t u) (hc : c ∈ u.children) : Contains t c

theorem Contains.trans {u v : Tree} (h : t.Contains u) (h' : u.Contains v) : t.Contains v := by
  induction h' with
  | self => exact h
  | child _ hc ih => exact ih.child hc

/-- **The tokens of a part stand together** among those of the tree (`tokens_isInfix_of_child`). -/
theorem Contains.tokens_isInfix {u : Tree} (h : t.Contains u) : u.tokens <:+: t.tokens := by
  induction h with
  | self => exact infix_rfl
  | child _ hc ih => exact (tokens_isInfix_of_child hc).trans ih

/-! ### Texts -/

section

variable {g : Token → Token} {t : Tree} (hg : Token.Faithful g t.tokens)
include hg

/-- A change that is faithful to a tree is so to its parts (`Contains.tokens_isInfix`). -/
theorem faithful_part {c : Tree} (hc : t.Contains c) : Token.Faithful g c.tokens :=
  hg.of_isInfix hc.tokens_isInfix

theorem faithful_child {c : Tree} (hc : c ∈ t.children) : Token.Faithful g c.tokens :=
  faithful_part hg (Contains.self.child hc)

/-- The text of a tree stays (`Faithful.joined_map`). -/
theorem text_relabel : (t.relabel g).text = t.text := by
  rw [text, tokens_relabel, hg.joined_map, text]

end

section

variable {g : Token → Token} {t : Tree} (htext : ∀ u ∈ t.tokens, (g u).text = u.text)
include htext

theorem map_text_childTokens : (t.childTokens.map g).map Token.text = t.childTokens.map Token.text := by
  rw [map_map]
  refine map_congr_left ?_
  intro u hu
  exact htext u (mem_tokens_of_childTokens hu)

/-- Texts are found among the children as before (`map_text_childTokens`). -/
theorem hasToken_relabel (text : String) : (t.relabel g).hasToken text = t.hasToken text := by
  have htexts (us : List Token) : us.any (·.text == text) = (us.map Token.text).any (· == text) := by
    rw [any_map]
    rfl
  rw [hasToken, childTokens_relabel, htexts, map_text_childTokens htext, ← htexts, hasToken]

end

/-! ### What is said of children -/

section

variable {α : Type} {g : Token → Token} {t : Tree} {F : Tree → α}
  (hF : ∀ c ∈ t.children, F (c.relabel g) = F c)
include hF

/-- What is said of a child stays, if it does for every child. -/
theorem map_child?_relabel (k : NodeKind) : ((t.relabel g).child? k).map F = (t.child? k).map F := by
  rw [child?_relabel, Option.map_map]
  refine Option.map_congr ?_
  intro c hc
  exact hF c (mem_children_of_child? hc)

theorem map_childType?_relabel : (t.relabel g).childType?.map F = t.childType?.map F := by
  rw [childType?_relabel, Option.map_map]
  refine Option.map_congr ?_
  intro c hc
  exact hF c (mem_children_of_childType? hc)

theorem map_childNodes_relabel : (t.relabel g).childNodes.map F = t.childNodes.map F := by
  rw [childNodes_relabel, map_map]
  refine map_congr_left ?_
  intro c hc
  exact hF c (mem_filter.mp hc).1

end

section

variable {g : Token → Token} {t : Tree}

theorem name_toAttribute_relabel (htext : ∀ u ∈ t.tokens, (g u).text = u.text) :
    (t.relabel g).toAttribute.name = t.toAttribute.name := by
  rw [toAttribute, toAttribute, childTokens_relabel, map_drop,
    map_text_childTokens htext, ← map_drop]

/-- An attribute keeps its name and the text of its arguments (`text_relabel`). -/
theorem toAttribute_relabel (hg : Token.Faithful g t.tokens) : (t.relabel g).toAttribute = t.toAttribute := by
  have harguments : ((t.relabel g).child? .attributeArguments).map (fun a => withoutParens a.text) =
      (t.child? .attributeArguments).map fun a => withoutParens a.text :=
    map_child?_relabel (fun c hc => by rw [text_relabel (faithful_child hg hc)]) _
  rw [toAttribute, toAttribute, Attribute.mk.injEq]
  exact ⟨name_toAttribute_relabel hg.text, harguments⟩

/-- What is said of each attribute. -/
theorem map_attributes_relabel {α : Type} {F : Attribute → α}
    (hF : ∀ c, t.Contains c → F (c.relabel g).toAttribute = F c.toAttribute) :
    (t.relabel g).attributes.map F = t.attributes.map F := by
  rw [attributes, attributes, child?_relabel]
  cases hlist : t.child? .attributeList with
  | none => rfl
  | some list =>
    simp only [Option.map_some, Option.getD_some, map_map]
    refine map_childNodes_relabel ?_
    intro c hc
    exact hF c (.child (.child .self (mem_children_of_child? hlist)) hc)

/-- So a tree keeps its attributes (`map_attributes_relabel`). -/
theorem attributes_relabel (hg : Token.Faithful g t.tokens) : (t.relabel g).attributes = t.attributes := by
  have h := @map_attributes_relabel g t _ id fun c hc => toAttribute_relabel (faithful_part hg hc)
  rw [map_id, map_id] at h
  exact h

end

end Tree

/-! ## Places -/

namespace Place

/-- The place with every token changed by `g`, and with further ancestors above. -/
def moved (g : Token → Token) (above : List Tree) (p : Place) : Place :=
  ⟨p.tree.relabel g, p.above.map (Tree.relabel g) ++ above⟩

variable (g : Token → Token) (above : List Tree) (p : Place)

theorem tree_moved : (p.moved g above).tree = p.tree.relabel g := rfl

theorem above_moved : (p.moved g above).above = p.above.map (Tree.relabel g) ++ above := rfl

theorem moved_root (t : Tree) : (root t).moved g above = ⟨t.relabel g, above⟩ := rfl

theorem moved_id_root (t : Tree) : (root t).moved id above = ⟨t, above⟩ := by
  rw [moved_root, Tree.relabel_id]

theorem span_moved_id : (p.moved id above).span = p.span := by
  rw [span, tree_moved, Tree.relabel_id, span]

/-- A place keeps its kind, and its look-ups lead to the moved places. -/
theorem kind?_moved : (p.moved g above).kind? = p.kind? := Tree.kind?_relabel g p.tree

theorem isKind_moved (k : NodeKind) : (p.moved g above).isKind k = p.isKind k :=
  Tree.isKind_relabel g k p.tree

theorem childNodes_moved : (p.moved g above).childNodes = p.childNodes.map (moved g above) := by
  rw [childNodes, tree_moved, Tree.childNodes_relabel, map_map, childNodes, map_map]
  rfl

theorem child?_moved (k : NodeKind) :
    (p.moved g above).child? k = (p.child? k).map (moved g above) := by
  rw [child?, tree_moved, Tree.child?_relabel, Option.map_map, child?, Option.map_map]
  rfl

theorem childType?_moved : (p.moved g above).childType? = p.childType?.map (moved g above) := by
  rw [childType?, tree_moved, Tree.childType?_relabel, Option.map_map, childType?, Option.map_map]
  rfl

variable {p} {q : Place}

/-- What lies below a place is part of its tree. -/
theorem Below.contains (h : p.Below q) : p.tree.Contains q.tree := by
  induction h with
  | child hc => exact .child .self hc
  | step _ hc ih => exact ih.child hc

theorem HoldsBelow.contains (h : p.HoldsBelow q) : p.tree.Contains q.tree := h.below.contains

theorem contains_of_child? {k : NodeKind} (h : p.child? k = some q) : p.tree.Contains q.tree :=
  (below_of_child? h).contains

theorem contains_of_childType? (h : p.childType? = some q) : p.tree.Contains q.tree :=
  (holdsBelow_of_childType? h).contains

theorem contains_of_childNodes (h : q ∈ p.childNodes) : p.tree.Contains q.tree :=
  (below_of_childNodes h).contains

end Place

end SwiftOutline
