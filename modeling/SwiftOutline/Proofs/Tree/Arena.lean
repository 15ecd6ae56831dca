import Mathlib.Data.List.Basic
import SwiftOutline.Tree.Builder

/-!
# `Arena` — the forest that a store stands for

A store read from one of its nodes down gives a tree again. What a builder holds is described by a
`Shape`: the trees that are finished, and the open nodes inside one another with the children they have
so far. Each call of the builder does to the shape what its name says, as long as the numbers that are in
use fit.
-/

namespace SwiftOutline

open List

/-! ## Reading a store -/

namespace Arena

variable {α : Type}

/-- A store read depth first from a child down: what stands for a token, and for a node what stands for
its children. The fuel bounds the depth, which is never more than the number of cells. -/
def gather (cells : List Cell) (onToken : Nat → List α) (onNode : Nat → NodeKind → List α → List α) :
    Nat → Slot → List α
  | 0, _ => []
  | _ + 1, .token index => onToken index
  | fuel + 1, .node id =>
    match cells[id]? with
    | some c => onNode id c.kind (c.children.flatMap (gather cells onToken onNode fuel))
    | none => []

/-- The positions of the tokens below a node, depth first. -/
def tokensBelow (cells : List Cell) (id : Nat) : List Nat :=
  gather cells (fun index => [index]) (fun _ _ below => below) (cells.length + 1) (.node id)

/-- A node and the nodes below it, parents first. -/
def nodesBelow (cells : List Cell) (id : Nat) : List Nat :=
  gather cells (fun _ => []) (fun id _ below => id :: below) (cells.length + 1) (.node id)

/-- The tree that is stored at a node, over the tokens of the text. -/
def treesBelow (cells : List Cell) (tokens : List Token) (id : Nat) : List Tree :=
  gather cells (fun index => tokens[index]?.toList.map .token) (fun _ k below => [.node k below])
    (cells.length + 1) (.node id)

end Arena

/-! ## The forest that a store stands for -/

/-- A stored tree: tokens by position, and nodes with the numbers of their cells. -/
inductive Plant where
  | leaf (index : Nat)
  | branch (id : Nat) (kind : NodeKind) (children : List Plant)

namespace Plant

/-- A property of stored trees that each node has if its children have it. -/
theorem induction {motive : Plant → Prop} (leaf : ∀ index, motive (.leaf index))
    (branch : ∀ id kind cs, (∀ c ∈ cs, motive c) → motive (.branch id kind cs)) : (p : Plant) → motive p
  | .leaf index => leaf index
  | .branch id kind cs => branch id kind cs fun c _ => induction leaf branch c

def slot : Plant → Slot
  | leaf index => .token index
  | branch id _ _ => .node id

section

variable {α : Type} (onToken : Nat → List α) (onNode : Nat → NodeKind → List α → List α)

mutual

/-- A stored tree read depth first. -/
def fold : Plant → List α
  | leaf index => onToken index
  | branch id kind cs => onNode id kind (foldForest cs)

def foldForest : List Plant → List α
  | [] => []
  | p :: ps => p.fold ++ foldForest ps

end

theorem foldForest_eq_flatMap (ps : List Plant) :
    foldForest onToken onNode ps = ps.flatMap (fold onToken onNode) := by
  induction ps with
  | nil => rw [foldForest, flatMap_nil]
  | cons p ps ih => rw [foldForest, flatMap_cons, ih]

end

/-- The positions of the tokens of a stored tree, depth first. -/
def leaves : Plant → List Nat := fold (fun index => [index]) (fun _ _ below => below)

/-- The numbers of the cells of a stored tree, parents first. -/
def ids : Plant → List Nat := fold (fun _ => []) (fun id _ below => id :: below)

/-- The cell of a closed node with these children. -/
def closedCell (kind : NodeKind) (parent : Option Nat) (cs : List Plant) : Cell where
  kind := kind
  parent := parent
  children := cs.map slot
  first := (cs.flatMap leaves).head?
  last := (cs.flatMap leaves).getLast?

mutual

/-- The cells that a stored tree takes up, with their numbers. -/
def cells (parent : Option Nat) : Plant → List (Nat × Cell)
  | leaf _ => []
  | branch id kind cs => (id, closedCell kind parent cs) :: forestCells (some id) cs

def forestCells (parent : Option Nat) : List Plant → List (Nat × Cell)
  | [] => []
  | p :: ps => p.cells parent ++ forestCells parent ps

end

theorem forestCells_eq_flatMap (parent : Option Nat) (ps : List Plant) :
    forestCells parent ps = ps.flatMap (cells parent) := by
  induction ps with
  | nil => rw [forestCells, flatMap_nil]
  | cons p ps ih => rw [forestCells, flatMap_cons, ih]

@[simp] theorem forestCells_nil (parent : Option Nat) : forestCells parent [] = [] := by
  rw [forestCells]

@[simp] theorem forestCells_append (parent : Option Nat) (ps qs : List Plant) :
    forestCells parent (ps ++ qs) = forestCells parent ps ++ forestCells parent qs := by
  simp only [forestCells_eq_flatMap, flatMap_append]

@[simp] theorem forestCells_singleton (parent : Option Nat) (p : Plant) :
    forestCells parent [p] = p.cells parent := by
  rw [forestCells_eq_flatMap, flatMap_singleton]

@[simp] theorem leaves_branch (id : Nat) (kind : NodeKind) (cs : List Plant) :
    (branch id kind cs).leaves = cs.flatMap leaves := by
  unfold leaves
  rw [fold, foldForest_eq_flatMap]

@[simp] theorem leaves_leaf (index : Nat) : (leaf index).leaves = [index] := by
  unfold leaves
  rw [fold]

@[simp] theorem ids_branch (id : Nat) (kind : NodeKind) (cs : List Plant) :
    (branch id kind cs).ids = id :: cs.flatMap ids := by
  unfold ids
  rw [fold, foldForest_eq_flatMap]

@[simp] theorem ids_leaf (index : Nat) : (leaf index).ids = [] := by
  unfold ids
  rw [fold]

theorem map_fst_cells (parent : Option Nat) (p : Plant) : (p.cells parent).map Prod.fst = p.ids := by
  induction p using induction generalizing parent with
  | leaf index => rw [cells, ids_leaf, map_nil]
  | branch id kind cs ih =>
    rw [cells, ids_branch, List.map_cons, forestCells_eq_flatMap, map_flatMap,
      flatMap_congr fun c hc => ih c hc (some id)]

theorem map_fst_forestCells (parent : Option Nat) (ps : List Plant) :
    (forestCells parent ps).map Prod.fst = ps.flatMap ids := by
  rw [forestCells_eq_flatMap, map_flatMap, flatMap_congr fun p _ => map_fst_cells parent p]

end Plant

/-- An open node with the children that it has so far. -/
structure Frame where
  id : Nat
  kind : NodeKind
  children : List Plant

/-- The cells of open nodes, the innermost first, where `inner` is the open node inside the first. -/
def frameCells (inner : Option Nat) : List Frame → List (Nat × Cell)
  | [] => []
  | f :: fs =>
    (f.id, ⟨f.kind, fs.head?.map Frame.id, f.children.map Plant.slot ++ inner.toList.map .node, none,
      none⟩) :: (Plant.forestCells (some f.id) f.children ++ frameCells (some f.id) fs)

/-- What a store holds: the trees that are closed and inside no other, and the open nodes. -/
structure Shape where
  size : Nat
  roots : List Plant
  frames : List Frame

def Shape.cells (s : Shape) : List (Nat × Cell) :=
  frameCells none s.frames ++ Plant.forestCells none s.roots

/-- The store has these cells under these numbers. -/
def Holds (cells : List Cell) (entries : List (Nat × Cell)) : Prop :=
  ∀ e ∈ entries, cells[e.1]? = some e.2

/-- **A shape describes a store**: the open nodes are those of the shape, each of its cells is in the
    store, and the cells of the shape are all there are, each once. -/
structure Describes {narrow : Nat → Nat} (b : Builder narrow) (s : Shape) : Prop where
  stack : b.stack = s.frames.map Frame.id
  size : b.cells.length = s.size
  holds : Holds b.cells s.cells
  ids : (s.cells.map Prod.fst).Perm (List.range s.size)

/-! ## Cells that stay as they are -/

section

variable {cells : List Cell} {entries : List (Nat × Cell)}

variable {e : Nat × Cell}

theorem Holds.cons (he : cells[e.1]? = some e.2) (h : Holds cells entries) : Holds cells (e :: entries) := by
  intro x hx
  rcases mem_cons.mp hx with rfl | hx
  · exact he
  · exact h x hx

theorem Holds.head (h : Holds cells (e :: entries)) : cells[e.1]? = some e.2 :=
  h e mem_cons_self

theorem Holds.tail (h : Holds cells (e :: entries)) : Holds cells entries :=
  fun x hx => h x (mem_cons_of_mem e hx)

theorem Holds.sub {entries' : List (Nat × Cell)} (h : Holds cells entries) (hsub : entries' ⊆ entries) :
    Holds cells entries' :=
  fun x hx => h x (hsub hx)

/-- A change to one cell changes its entry and no other, where no number has two entries. -/
theorem Holds.update (xs : List (Nat × Cell)) {ys : List (Nat × Cell)} {id : Nat} {c : Cell}
    (h : Holds cells (xs ++ (id, c) :: ys)) (hnodup : ((xs ++ (id, c) :: ys).map Prod.fst).Nodup)
    (change : Cell → Cell) : Holds (cells.modify id change) (xs ++ (id, change c) :: ys) := by
  have hother : ∀ x, x ∈ xs ∨ x ∈ ys → (cells.modify id change)[x.1]? = some x.2 := by
    intro x hx
    have hne : id ≠ x.1 := by
      intro heq
      have hnot := (perm_middle.map Prod.fst).nodup_iff.mp hnodup
      rw [List.map_cons, nodup_cons] at hnot
      exact hnot.1 (mem_map.mpr ⟨x, mem_append.mpr hx, heq.symm⟩)
    rw [List.getElem?_modify_ne _ _ hne]
    refine h x ?_
    rcases hx with hx | hx
    · exact mem_append_left _ hx
    · exact mem_append_right _ (mem_cons_of_mem _ hx)
  intro x hx
  rcases mem_append.mp hx with hx | hx
  · exact hother x (.inl hx)
  rcases mem_cons.mp hx with rfl | hx
  · have hold := h (id, c) (mem_append_right xs mem_cons_self)
    rw [List.getElem?_modify_eq, hold, Option.map_eq_map, Option.map_some]
  · exact hother x (.inr hx)

theorem Holds.append (h : Holds cells entries) (more : List Cell) : Holds (cells ++ more) entries := by
  intro x hx
  have hx' := h x hx
  rw [List.getElem?_append_left (List.getElem?_eq_some_iff.mp hx').1, hx']

/-- A new cell has the next number. -/
theorem Holds.snoc (h : Holds cells entries) (c : Cell) :
    Holds (cells ++ [c]) ((cells.length, c) :: entries) := by
  refine Holds.cons ?_ (h.append [c])
  rw [List.getElem?_append_right (Nat.le_refl _), Nat.sub_self, List.getElem?_cons_zero]

end

/-! ## The steps of building -/

/-- The cell of an open node, where `inner` is the open node inside it and `fs` are those around it. -/
def Frame.cell (f : Frame) (inner : Option Nat) (fs : List Frame) : Cell :=
  ⟨f.kind, fs.head?.map Frame.id, f.children.map Plant.slot ++ inner.toList.map .node, none, none⟩

/-- An open node inside another is in the cell of the other what a closed one is. -/
theorem Frame.cell_child (f : Frame) (id : Nat) (kind : NodeKind) (cs : List Plant) (fs : List Frame) :
    f.cell (some id) fs =
      ({ f with children := f.children ++ [.branch id kind cs] } : Frame).cell none fs := by
  simp only [Frame.cell, Plant.slot, Option.toList_some, Option.toList_none, map_append,
    List.map_cons, map_nil, append_nil]

/-- All cells but that of the innermost open node. -/
def besides (roots : List Plant) (f : Frame) (fs : List Frame) : List (Nat × Cell) :=
  Plant.forestCells (some f.id) f.children ++
    (frameCells (some f.id) fs ++ Plant.forestCells none roots)

theorem frameCells_cons (inner : Option Nat) (f : Frame) (fs : List Frame) :
    frameCells inner (f :: fs) =
      (f.id, f.cell inner fs) ::
        (Plant.forestCells (some f.id) f.children ++ frameCells (some f.id) fs) := rfl

theorem besides_cons (roots : List Plant) (f g : Frame) (fs : List Frame) :
    besides roots f (g :: fs) =
      Plant.forestCells (some f.id) f.children ++ (g.id, g.cell (some f.id) fs) :: besides roots g fs := by
  unfold besides
  rw [frameCells_cons, cons_append, append_assoc]

theorem Shape.cells_cons (n : Nat) (roots : List Plant) (f : Frame) (fs : List Frame) :
    (Shape.mk n roots (f :: fs)).cells = (f.id, f.cell none fs) :: besides roots f fs := by
  unfold Shape.cells besides
  rw [frameCells_cons, cons_append, append_assoc]

section

variable {narrow : Nat → Nat} {b : Builder narrow} {n : Nat} {roots : List Plant} {f :
  Frame} {fs : List Frame}

theorem Describes.nodup {s : Shape} (h : Describes b s) : (s.cells.map Prod.fst).Nodup :=
  h.ids.nodup_iff.mpr nodup_range

theorem Describes.holds_cons (h : Describes b ⟨n, roots, f :: fs⟩) :
    Holds b.cells ((f.id, f.cell none fs) :: besides roots f fs) := by
  have hholds := h.holds
  rw [Shape.cells_cons] at hholds
  exact hholds

theorem Describes.ids_cons (h : Describes b ⟨n, roots, f :: fs⟩) :
    (f.id :: (besides roots f fs).map Prod.fst).Perm (List.range n) := by
  have hids := h.ids
  rwa [Shape.cells_cons] at hids

/-- A change to the innermost open node changes its cell and no other. -/
theorem Describes.modify (h : Describes b ⟨n, roots, f :: fs⟩) (change : Cell → Cell) :
    Holds (b.cells.modify f.id change) ((f.id, change (f.cell none fs)) :: besides roots f fs) :=
  Holds.update [] h.holds_cons (Shape.cells_cons n roots f fs ▸ h.nodup) change

theorem findSome?_congr {α β : Type} {xs : List α} {g g' : α → Option β} (h : ∀ x ∈ xs, g x = g' x) :
    xs.findSome? g = xs.findSome? g' := by
  induction xs with
  | nil => rfl
  | cons x xs ih =>
    rw [List.findSome?_cons, List.findSome?_cons, h x mem_cons_self,
      ih fun y hy => h y (mem_cons_of_mem x hy)]

/-- One more number is one more cell. -/
theorem perm_range_succ {ids : List Nat} (h : ids.Perm (List.range n)) :
    (n :: ids).Perm (List.range (n + 1)) := by
  rw [range_succ]
  exact (h.cons n).trans (perm_append_singleton n (List.range n)).symm

/-- An entry and the group in front of it change places. -/
theorem perm_regroup {α : Type} (y : α) (xs group ys : List α) :
    (y :: ((xs ++ group) ++ ys)).Perm (group ++ y :: (xs ++ ys)) := by
  refine List.Perm.trans (List.Perm.cons y ?_) perm_middle.symm
  rw [← append_assoc]
  exact perm_append_comm.append_right ys

theorem describes_empty : Describes (Builder.empty : Builder narrow) ⟨0, [], []⟩ where
  stack := rfl
  size := rfl
  holds := fun _ he => absurd he not_mem_nil
  ids := List.Perm.refl _

/-- The next node gets the number of the next cell, if that number fits. -/
theorem Describes.nextId {s : Shape} (h : Describes b s) (hn : narrow s.size = s.size) :
    b.nextId = s.size := by
  rw [Builder.nextId, h.size, hn]

/-- Opening a node when none is open begins a new tree. -/
theorem Describes.startRoot (h : Describes b ⟨n, roots, []⟩) (hn : narrow n = n) (kind : NodeKind) :
    Describes (b.startNode kind) ⟨n + 1, roots, [⟨n, kind, []⟩]⟩ := by
  have hstack : b.stack = [] := h.stack
  have hid := h.nextId hn
  have hcells : (b.startNode kind).cells = b.cells ++ [⟨kind, none, [], none, none⟩] := by
    simp only [Builder.startNode, Builder.withChild, hstack, List.head?_nil]
  refine ⟨?_, ?_, ?_, ?_⟩
  · simp only [Builder.startNode, hstack, hid, List.map_cons, map_nil]
  · rw [hcells, length_append, h.size, length_singleton]
  · rw [hcells, Shape.cells_cons]
    have hnew := h.holds.snoc ⟨kind, none, [], none, none⟩
    rw [h.size] at hnew
    exact hnew
  · rw [Shape.cells_cons, List.map_cons]
    exact perm_range_succ h.ids

/-- Opening a node inside another adds a frame, and the new node to the other's children. -/
theorem Describes.start (h : Describes b ⟨n, roots, f :: fs⟩) (hn : narrow n = n) (kind : NodeKind) :
    Describes (b.startNode kind) ⟨n + 1, roots, ⟨n, kind, []⟩ :: f :: fs⟩ := by
  have hstack : b.stack = f.id :: fs.map Frame.id := h.stack
  have hid := h.nextId hn
  have hcells : (b.startNode kind).cells =
      (b.cells.modify f.id fun c => { c with children := c.children ++ [.node n] }) ++
        [⟨kind, some f.id, [], none, none⟩] := by
    simp only [Builder.startNode, Builder.withChild, hstack, List.head?_cons, hid]
  have hshape : (Shape.mk (n + 1) roots (⟨n, kind, []⟩ :: f :: fs)).cells =
      (n, ⟨kind, some f.id, [], none, none⟩) :: (f.id, f.cell (some n) fs) :: besides roots f fs := by
    rw [Shape.cells_cons, besides_cons, Plant.forestCells_nil, nil_append]
    rfl
  have hcell : f.cell (some n) fs =
      { f.cell none fs with children := (f.cell none fs).children ++ [.node n] } := by
    simp only [Frame.cell, Option.toList_none, Option.toList_some, map_nil, List.map_cons,
      append_nil]
  refine ⟨?_, ?_, ?_, ?_⟩
  · simp only [Builder.startNode, hstack, hid, List.map_cons]
  · rw [hcells, length_append, length_modify, h.size, length_singleton]
  · rw [hcells, hshape, hcell]
    have hnew := (h.modify fun c => { c with children := c.children ++ [.node n] }).snoc
      ⟨kind, some f.id, [], none, none⟩
    rw [length_modify, h.size] at hnew
    exact hnew
  · rw [hshape, List.map_cons]
    exact perm_range_succ h.ids_cons

/-- Pushing a token adds it to the children of the innermost open node. -/
theorem Describes.push (h : Describes b ⟨n, roots, f :: fs⟩) (index : Nat) :
    Describes (b.pushToken index)
      ⟨n, roots, { f with children := f.children ++ [.leaf (narrow index)] } :: fs⟩ := by
  have hstack : b.stack = f.id :: fs.map Frame.id := h.stack
  have hcells : (b.pushToken index).cells =
      b.cells.modify f.id fun c => { c with children := c.children ++ [.token (narrow index)] } := by
    simp only [Builder.pushToken, Builder.withChild, hstack]
  have hshape : (Shape.mk n roots ({ f with children := f.children ++ [.leaf (narrow index)] } :: fs)).cells =
      (f.id, { f.cell none fs with children := (f.cell none fs).children ++ [.token (narrow index)] }) ::
        besides roots f fs := by
    simp only [Shape.cells_cons, besides, Frame.cell, Plant.forestCells_append,
      Plant.forestCells_singleton, Plant.cells, append_nil, map_append, List.map_cons,
      map_nil, Plant.slot, Option.toList_none]
  refine ⟨?_, ?_, ?_, ?_⟩
  · simp only [Builder.pushToken, hstack, List.map_cons]
  · rw [hcells, length_modify, h.size]
  · rw [hcells, hshape]
    exact h.modify _
  · rw [hshape, List.map_cons]
    exact h.ids_cons

/-- Changing the kind of the innermost open node. -/
theorem Describes.retag (h : Describes b ⟨n, roots, f :: fs⟩) (kind : NodeKind) :
    Describes (b.retag f.id kind) ⟨n, roots, { f with kind := kind } :: fs⟩ := by
  have hshape : (Shape.mk n roots ({ f with kind := kind } :: fs)).cells =
      (f.id, { f.cell none fs with kind := kind }) :: besides roots f fs := by
    simp only [Shape.cells_cons, besides, Frame.cell]
  refine ⟨h.stack, ?_, ?_, ?_⟩
  · simp only [Builder.retag, length_modify, h.size]
  · rw [hshape]
    exact h.modify _
  · rw [hshape, List.map_cons]
    exact h.ids_cons

/-- A closed child of the innermost open node knows the ends of its own tokens. -/
theorem Describes.slot_ends (h : Describes b ⟨n, roots, f :: fs⟩) {p : Plant} (hp : p ∈ f.children) :
    b.slotFirst p.slot = p.leaves.head? ∧ b.slotLast p.slot = p.leaves.getLast? := by
  cases p with
  | leaf index => exact ⟨by rw [Plant.leaves_leaf]; rfl, by rw [Plant.leaves_leaf]; rfl⟩
  | branch id kind cs =>
    have hmem : (id, Plant.closedCell kind (some f.id) cs) ∈
        Plant.forestCells (some f.id) f.children := by
      rw [Plant.forestCells_eq_flatMap, mem_flatMap]
      exact ⟨_, hp, by rw [Plant.cells]; exact mem_cons_self⟩
    have hcell : b.cells[id]? = some (Plant.closedCell kind (some f.id) cs) :=
      h.holds_cons.tail _ (mem_append_left _ hmem)
    constructor
    · rw [Plant.slot, Builder.slotFirst, hcell, Plant.leaves_branch]
      rfl
    · rw [Plant.slot, Builder.slotLast, hcell, Plant.leaves_branch]
      rfl

/-- What closing the innermost open node writes into its cell. -/
theorem Describes.finish_cell (h : Describes b ⟨n, roots, f :: fs⟩) :
    { f.cell none fs with
      first := (f.cell none fs).children.findSome? b.slotFirst
      last := (f.cell none fs).children.reverse.findSome? b.slotLast } =
      Plant.closedCell f.kind (fs.head?.map Frame.id) f.children := by
  have hchildren : (f.cell none fs).children = f.children.map Plant.slot := by
    simp only [Frame.cell, Option.toList_none, map_nil, append_nil]
  have hfirst : (f.children.map Plant.slot).findSome? b.slotFirst =
      (f.children.flatMap Plant.leaves).head? := by
    rw [List.findSome?_map, List.head?_flatMap]
    exact findSome?_congr fun p hp => (h.slot_ends hp).1
  have hlast : (f.children.map Plant.slot).reverse.findSome? b.slotLast =
      (f.children.flatMap Plant.leaves).getLast? := by
    rw [← map_reverse, List.findSome?_map, List.getLast?_flatMap]
    exact findSome?_congr fun p hp => (h.slot_ends (mem_reverse.mp hp)).2
  rw [hchildren, hfirst, hlast]
  simp only [Frame.cell, Plant.closedCell, Option.toList_none, map_nil, append_nil]

/-- Entries in another order that the store holds and that are all of its cells. -/
theorem Describes.of_perm {s : Shape} {entries : List (Nat × Cell)}
    (hstack : b.stack = s.frames.map Frame.id) (hsize : b.cells.length = s.size)
    (hperm : s.cells.Perm entries) (hholds : Holds b.cells entries)
    (hids : (entries.map Prod.fst).Perm (List.range s.size)) : Describes b s :=
  ⟨hstack, hsize, hholds.sub hperm.subset, (hperm.map Prod.fst).trans hids⟩

/-- The entries after closing the innermost open node. -/
theorem Describes.finish_holds (h : Describes b ⟨n, roots, f :: fs⟩) :
    Holds b.finishNode.cells
        ((f.id, Plant.closedCell f.kind (fs.head?.map Frame.id) f.children) :: besides roots f fs) ∧
      b.finishNode.stack = fs.map Frame.id ∧ b.finishNode.cells.length = n := by
  have hstack : b.stack = f.id :: fs.map Frame.id := h.stack
  refine ⟨?_, ?_, ?_⟩
  · rw [← h.finish_cell]
    simp only [Builder.finishNode, hstack]
    exact h.modify _
  · simp only [Builder.finishNode, hstack]
  · simp only [Builder.finishNode, hstack, length_modify, h.size]

/-- Closing the only open node leaves a finished tree. -/
theorem Describes.finishRoot (h : Describes b ⟨n, roots, [f]⟩) :
    Describes b.finishNode ⟨n, roots ++ [.branch f.id f.kind f.children], []⟩ := by
  obtain ⟨hholds, hstack, hsize⟩ := h.finish_holds
  refine Describes.of_perm hstack hsize ?_ hholds ?_
  · simp only [Shape.cells, besides, frameCells, nil_append, Plant.forestCells_append,
      Plant.forestCells_singleton, Plant.cells]
    exact perm_append_comm
  · exact h.ids_cons

/-- Closing a node inside another makes it a finished child of the other. -/
theorem Describes.finish {g : Frame} (h : Describes b ⟨n, roots, f :: g :: fs⟩) :
    Describes b.finishNode
      ⟨n, roots, { g with children := g.children ++ [.branch f.id f.kind f.children] } :: fs⟩ := by
  obtain ⟨hholds, hstack, hsize⟩ := h.finish_holds
  refine Describes.of_perm hstack hsize ?_ hholds ?_
  · -- the closed node and what is below it move behind the other children of the node around it
    have hcell := g.cell_child f.id f.kind f.children fs
    rw [Shape.cells_cons, besides_cons, hcell]
    simp only [besides, Plant.forestCells_append, Plant.forestCells_singleton, Plant.cells]
    exact perm_regroup _ _ (_ :: Plant.forestCells (some f.id) f.children) _
  · exact h.ids_cons

/-- Putting the last child of the innermost open node into a new node, which is then open. -/
theorem Describes.wrap {id : Nat} {k : NodeKind} {below : List Plant}
    (h : Describes b
      ⟨n, roots, { f with children := f.children ++ [.branch id k below] } :: fs⟩)
    (hn : narrow n = n) (kind : NodeKind) :
    ∃ b', b.wrapLast? kind = some b' ∧
      Describes b' ⟨n + 1, roots, ⟨n, kind, [.branch id k below]⟩ :: f :: fs⟩ := by
  have hstack : b.stack = f.id :: fs.map Frame.id := h.stack
  have hid := h.nextId hn
  -- the entries before, with the child to be wrapped between the others
  have hentries : (Shape.mk n roots
      ({ f with children := f.children ++ [.branch id k below] } :: fs)).cells =
      ((f.id, f.cell (some id) fs) :: Plant.forestCells (some f.id) f.children) ++
        (id, Plant.closedCell k (some f.id) below) :: (Plant.forestCells (some id) below ++
          (frameCells (some f.id) fs ++ Plant.forestCells none roots)) := by
    rw [Shape.cells_cons, ← f.cell_child]
    simp only [besides, Plant.forestCells_append, Plant.forestCells_singleton, Plant.cells,
      cons_append, append_assoc]
  have hholds := h.holds
  have hnodup := h.nodup
  have hids := h.ids
  rw [hentries] at hholds hnodup hids
  have hcell : b.cells[f.id]? = some (f.cell (some id) fs) := hholds.head
  have hlast : (b.cells[f.id]?.bind fun c => c.children.getLast?) = some (.node id) := by
    rw [hcell, Option.bind_some]
    exact List.getLast?_concat
  -- first the child gets the new node as its parent, then the open node gets it in the child's place
  have hchild := hholds.update _ hnodup fun c => { c with parent := some n }
  rw [cons_append] at hchild
  have hopen := Holds.update [] hchild
    (by simpa only [map_append, List.map_cons, nil_append, cons_append] using hnodup)
    fun c => { c with children := c.children.dropLast ++ [.node n] }
  have hnew := hopen.snoc ⟨kind, some f.id, [.node id], none, none⟩
  have hslots : { f.cell (some id) fs with
      children := (f.cell (some id) fs).children.dropLast ++ [.node n] } = f.cell (some n) fs := by
    simp only [Frame.cell, Option.toList_some, List.map_cons, map_nil, dropLast_concat]
  have hwrapped : b.wrapLast? kind = some
      { cells := ((b.cells.modify id fun c => { c with parent := some n }).modify f.id
          fun c => { c with children := c.children.dropLast ++ [.node n] }) ++
            [⟨kind, some f.id, [.node id], none, none⟩]
        stack := n :: b.stack } := by
    simp only [Builder.wrapLast?, hstack, hlast, hid]
  rw [hslots, length_modify, length_modify, h.size] at hnew
  refine ⟨_, hwrapped, Describes.of_perm ?_ ?_ ?_ hnew ?_⟩
  · simp only [hstack, List.map_cons]
  · simp only [length_append, length_modify, h.size, length_singleton]
  · rw [Shape.cells_cons, besides_cons, Plant.forestCells_singleton, Plant.cells, nil_append]
    refine List.Perm.cons _ ((perm_regroup _ _ (_ :: Plant.forestCells (some id) below) _).symm.trans ?_)
    rw [append_assoc, cons_append]
    exact List.Perm.refl _
  · refine perm_range_succ ?_
    simpa only [map_append, List.map_cons, nil_append, cons_append] using hids

end

/-! ## Reading the store of a tree -/

section

variable {α : Type} {cells : List Cell} (onToken : Nat → List α)
  (onNode : Nat → NodeKind → List α → List α)

/-- What is read off one of several is a part of what is read off all. -/
theorem infix_flatMap {α β : Type} {x : α} {xs : List α} (h : x ∈ xs) (read : α → List β) :
    read x <:+: xs.flatMap read :=
  infix_of_mem_flatten (mem_map_of_mem h)

/-- **Reading a store gives the tree that is stored**, with enough fuel for its nodes. -/
theorem gather_slot (p : Plant) {parent : Option Nat} {fuel : Nat} (h : Holds cells (p.cells parent))
    (hfuel : p.ids.length < fuel) :
    Arena.gather cells onToken onNode fuel p.slot = p.fold onToken onNode := by
  obtain ⟨fuel, rfl⟩ := Nat.exists_eq_add_one.mpr (Nat.zero_lt_of_lt hfuel)
  induction p using Plant.induction generalizing parent fuel with
  | leaf index => rw [Plant.slot, Arena.gather, Plant.fold]
  | branch id kind cs ih =>
    rw [Plant.cells, Plant.forestCells_eq_flatMap] at h
    rw [Plant.ids_branch, length_cons] at hfuel
    have hcell : cells[id]? = some (Plant.closedCell kind parent cs) := h.head
    simp only [Plant.slot, Arena.gather, hcell, Plant.fold, Plant.foldForest_eq_flatMap, Plant.closedCell,
      flatMap_map]
    refine congrArg (onNode id kind) (flatMap_congr fun c hc => ?_)
    have hle := (infix_flatMap hc Plant.ids).length_le
    obtain ⟨fuel, rfl⟩ := Nat.exists_eq_add_one.mpr (show 0 < fuel by omega)
    exact ih c hc (h.tail.sub (infix_flatMap hc _).subset) fuel (by omega)

end

namespace Plant

/-- Every cell of a stored tree is the cell of a node of it, whose own cells and tokens are a part of
those of the tree. -/
theorem exists_branch_of_mem_cells (p : Plant) {parent : Option Nat} {e : Nat × Cell}
    (h : e ∈ p.cells parent) :
    ∃ above kind cs, e = (e.1, closedCell kind above cs) ∧
      (branch e.1 kind cs).cells above <:+: p.cells parent ∧ cs.flatMap leaves <:+: p.leaves := by
  induction p using induction generalizing parent with
  | leaf index =>
    rw [cells] at h
    cases h
  | branch id kind cs ih =>
    rw [leaves_branch]
    rw [cells, forestCells_eq_flatMap, mem_cons] at h
    rcases h with rfl | h
    · exact ⟨parent, kind, cs, rfl, infix_rfl, infix_rfl⟩
    · obtain ⟨c, hc, h⟩ := mem_flatMap.mp h
      obtain ⟨above, kind', cs', heq, hcells, hleaves⟩ := ih c hc h
      refine ⟨above, kind', cs', heq, hcells.trans ?_, hleaves.trans (infix_flatMap hc leaves)⟩
      rw [cells, forestCells_eq_flatMap]
      exact (infix_flatMap hc _).trans (suffix_cons _ _).isInfix

theorem exists_branch_of_mem_forestCells (ps : List Plant) {parent : Option Nat} {e : Nat × Cell}
    (h : e ∈ forestCells parent ps) :
    ∃ above kind cs, e = (e.1, closedCell kind above cs) ∧
      (branch e.1 kind cs).cells above <:+: forestCells parent ps ∧
      cs.flatMap leaves <:+: ps.flatMap leaves := by
  rw [forestCells_eq_flatMap] at h ⊢
  obtain ⟨p, hp, h⟩ := mem_flatMap.mp h
  obtain ⟨above, kind, cs, heq, hcells, hleaves⟩ := exists_branch_of_mem_cells p h
  exact ⟨above, kind, cs, heq, hcells.trans (infix_flatMap hp _), hleaves.trans (infix_flatMap hp leaves)⟩

end Plant

end SwiftOutline
