import SwiftOutline.Tree.Basic

/-!
# Places in a tree

A tree together with the nodes above it. Some questions about a node, such as which container owns
it, are answered by looking up from it.
-/

namespace SwiftOutline

/-- A tree and its ancestors, the nearest first. -/
structure Place where
  tree : Tree
  above : List Tree
deriving Inhabited

namespace Place

/-- The root of a tree. -/
def root (t : Tree) : Place := ⟨t, []⟩

def kind? (p : Place) : Option NodeKind := p.tree.kind?

def isKind (k : NodeKind) (p : Place) : Bool := p.tree.isKind k

def isType (p : Place) : Bool := p.tree.isType

def text (p : Place) : String := p.tree.text

def span (p : Place) : Span := p.tree.span

/-- The place of a child. -/
def down (p : Place) (child : Tree) : Place := ⟨child, p.tree :: p.above⟩

/-- The place of the node above. -/
def parent? (p : Place) : Option Place :=
  match p.above with
  | [] => none
  | t :: ts => some ⟨t, ts⟩

/-- The places of the child nodes. -/
def childNodes (p : Place) : List Place := p.tree.childNodes.map p.down

/-- The place of the first child node of a kind. -/
def child? (k : NodeKind) (p : Place) : Option Place := (p.tree.child? k).map p.down

/-- The place of the first child node that is a type expression. -/
def childType? (p : Place) : Option Place := p.tree.childType?.map p.down

/-- The places of a line of ancestors. -/
def ofAncestors : List Tree → List Place
  | [] => []
  | t :: ts => ⟨t, ts⟩ :: ofAncestors ts

/-- The places of the nodes above, the nearest first. -/
def ancestors (p : Place) : List Place := ofAncestors p.above

/-! ## Steps down -/

/-- The second place is reached from the first by steps down, at least one. -/
inductive Below (p : Place) : Place → Prop where
  | child {c : Tree} (hc : c ∈ p.tree.children) : Below p (p.down c)
  | step {q : Place} {c : Tree} (h : Below p q) (hc : c ∈ q.tree.children) : Below p (q.down c)

/-- The second place is a type below the first. -/
structure HoldsBelow (p q : Place) : Prop where
  below : p.Below q
  isType : q.tree.isType = true

variable {p q r : Place}

theorem Below.trans (h : p.Below q) (h' : q.Below r) : p.Below r := by
  induction h' with
  | child hc => exact h.step hc
  | step _ hc ih => exact ih.step hc

theorem Below.sizeOf_lt (h : p.Below q) : sizeOf q.tree < sizeOf p.tree := by
  induction h with
  | child hc => exact Tree.sizeOf_lt_of_mem_children hc
  | step _ hc ih => exact Nat.lt_trans (Tree.sizeOf_lt_of_mem_children hc) ih

theorem HoldsBelow.of_below (h : p.Below q) (h' : q.HoldsBelow r) : p.HoldsBelow r :=
  ⟨h.trans h'.below, h'.isType⟩

theorem below_of_childNodes (h : q ∈ p.childNodes) : p.Below q := by
  obtain ⟨t, ht, rfl⟩ := List.mem_map.mp h
  exact .child (List.mem_filter.mp ht).1

theorem below_of_child? {k : NodeKind} (h : p.child? k = some q) : p.Below q := by
  obtain ⟨t, ht, rfl⟩ := Option.map_eq_some_iff.mp h
  exact .child (List.mem_of_find?_eq_some ht)

theorem holdsBelow_of_childType? (h : p.childType? = some q) : p.HoldsBelow q := by
  obtain ⟨t, ht, rfl⟩ := Option.map_eq_some_iff.mp h
  exact ⟨.child (List.mem_of_find?_eq_some ht), List.find?_some ht⟩

/-- The types that the nodes in a list hold. -/
theorem holdsBelow_of_entries (h : q ∈ p.childNodes.filterMap childType?) : p.HoldsBelow q := by
  obtain ⟨entry, hentry, hq⟩ := List.mem_filterMap.mp h
  exact (holdsBelow_of_childType? hq).of_below (below_of_childNodes hentry)

end Place

end SwiftOutline
