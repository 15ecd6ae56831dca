import Mathlib.Logic.Relation
import SwiftOutline.Proofs.Tree.Lossless

/-!
# `Forest` — every run of the builder leaves a forest

The steps of building may come in any order, also where a token is pushed with no node open or a node is
wrapped that is not there. What a run leaves behind is always described by a shape: finished trees, and
open nodes inside one another. Closing the open nodes gives a store of finished trees without touching a
link, so that everything said of links and of tokens can be read off finished trees.
-/

namespace SwiftOutline

open Plant List

variable {narrow : Nat → Nat}

/-! ## Steps -/

/-- A step of building. -/
inductive BuildStep where
  | start (kind : NodeKind)
  | push (index : Nat)
  | finish
  | wrap (kind : NodeKind)
  | retag (id : Nat) (kind : NodeKind)
deriving DecidableEq, Repr

namespace Builder

/-- Takes one step. A wrapping that does not apply changes nothing. -/
def step (b : Builder narrow) : BuildStep → Builder narrow
  | .start kind => b.startNode kind
  | .push index => b.pushToken index
  | .finish => b.finishNode
  | .wrap kind => (b.wrapLast? kind).getD b
  | .retag id kind => b.retag id kind

/-- Takes steps one after another. -/
def run (b : Builder narrow) (steps : List BuildStep) : Builder narrow := steps.foldl step b

@[simp] theorem run_cons (b : Builder narrow) (s : BuildStep) (steps : List BuildStep) :
    b.run (s :: steps) = (b.step s).run steps := rfl

/-- The numbers of all nodes are kept as they are. -/
def Fits (b : Builder narrow) : Prop := ∀ id < b.cells.length, narrow id = id

theorem length_withChild (b : Builder narrow) (slot : Slot) : (b.withChild slot).length = b.cells.length := by
  unfold withChild
  split <;> simp

theorem length_startNode (b : Builder narrow) (kind : NodeKind) :
    (b.startNode kind).cells.length = b.cells.length + 1 := by
  rw [startNode, length_append, length_withChild, length_singleton]

/-- No step takes a cell away. -/
theorem length_le_step (b : Builder narrow) (s : BuildStep) : b.cells.length ≤ (b.step s).cells.length := by
  cases s with
  | start kind =>
    rw [step, length_startNode]
    omega
  | push index => exact Nat.le_of_eq (b.length_withChild _).symm
  | finish =>
    rw [step, finishNode]
    split <;> simp
  | wrap kind =>
    rw [step, wrapLast?]
    split
    · exact Nat.le_refl _
    · split
      · simp
      · exact Nat.le_refl _
  | retag id kind => simp [step, retag]

/-- By `length_le_step`: no step removes a cell. -/
theorem length_le_run (b : Builder narrow) (steps : List BuildStep) :
    b.cells.length ≤ (b.run steps).cells.length := by
  induction steps generalizing b with
  | nil => exact Nat.le_refl _
  | cons s steps ih => exact Nat.le_trans (b.length_le_step s) (ih (b.step s))

/-- What fits in the end has fitted from the outset. -/
theorem Fits.before {b : Builder narrow} (steps : List BuildStep) (h : (b.run steps).Fits) : b.Fits :=
  fun id hid => h id (Nat.lt_of_lt_of_le hid (b.length_le_run steps))

end Builder

/-! ## Changing kinds -/

/-- The entry after the node `id` has become one of a kind. -/
def retagEntry (id : Nat) (kind : NodeKind) (e : Nat × Cell) : Nat × Cell :=
  (e.1, if e.1 = id then { e.2 with kind := kind } else e.2)

/-- The cell in the store changes as the entry does. -/
theorem Holds.retag {cells : List Cell} {entries : List (Nat × Cell)} (h : Holds cells entries) (id : Nat)
    (kind : NodeKind) :
    Holds (cells.modify id fun c => { c with kind := kind }) (entries.map (retagEntry id kind)) := by
  intro _ hmem
  obtain ⟨e, he, rfl⟩ := mem_map.mp hmem
  have hcell := h e he
  unfold retagEntry
  by_cases hid : e.1 = id
  · rw [if_pos hid, hid, List.getElem?_modify_eq, ← hid, hcell]
    rfl
  · rw [if_neg hid, List.getElem?_modify_ne _ _ (Ne.symm hid), hcell]

namespace Plant

/-- The stored tree `q` is `p` after the node `id` has become one of a kind. -/
def Retagged (id : Nat) (kind : NodeKind) (p q : Plant) : Prop :=
  q.slot = p.slot ∧ q.leaves = p.leaves ∧ ∀ parent, q.cells parent = (p.cells parent).map (retagEntry id kind)

theorem exists_retagged_forest {id : Nat} {kind : NodeKind} {ps : List Plant}
    (h : ∀ p ∈ ps, ∃ q, p.Retagged id kind q) :
    ∃ qs : List Plant, qs.map slot = ps.map slot ∧ qs.flatMap leaves = ps.flatMap leaves ∧
      ∀ parent, forestCells parent qs = (forestCells parent ps).map (retagEntry id kind) := by
  choose! retag hslot hleaves hcells using h
  refine ⟨ps.map retag, ?_, ?_, fun parent => ?_⟩
  · rw [map_map]
    exact map_congr_left hslot
  · rw [flatMap_map]
    exact flatMap_congr hleaves
  · simp only [forestCells_eq_flatMap, flatMap_map, map_flatMap]
    exact flatMap_congr fun p hp => hcells p hp parent

/-- By induction on the plant. -/
theorem exists_retagged (id : Nat) (kind : NodeKind) (p : Plant) : ∃ q, p.Retagged id kind q := by
  induction p using induction with
  | leaf index => exact ⟨leaf index, rfl, rfl, fun parent => by rw [cells, map_nil]⟩
  | branch i k cs ih =>
    obtain ⟨ds, hslots, hleaves, hcells⟩ := exists_retagged_forest ih
    refine ⟨branch i (if i = id then kind else k) ds, rfl, ?_, fun parent => ?_⟩
    · rw [leaves_branch, leaves_branch, hleaves]
    · rw [cells, cells, hcells, List.map_cons, closedCell, hslots, hleaves]
      unfold retagEntry
      split <;> rfl

end Plant

/-- The tokens of open nodes, those of the outermost first. -/
def frameLeaves (fs : List Frame) : List Nat := fs.reverse.flatMap fun f => f.children.flatMap leaves

theorem frameLeaves_cons (f : Frame) (fs : List Frame) :
    frameLeaves (f :: fs) = frameLeaves fs ++ f.children.flatMap leaves := by
  simp [frameLeaves]

theorem exists_retag_frames (id : Nat) (kind : NodeKind) (fs : List Frame) :
    ∃ gs : List Frame, gs.map Frame.id = fs.map Frame.id ∧ frameLeaves gs = frameLeaves fs ∧
      ∀ inner, frameCells inner gs = (frameCells inner fs).map (retagEntry id kind) := by
  induction fs with
  | nil => exact ⟨[], rfl, rfl, fun inner => rfl⟩
  | cons f fs ih =>
    obtain ⟨gs, hids, hleaves, hcells⟩ := ih
    obtain ⟨cs, hslots, hleaves', hcells'⟩ := exists_retagged_forest fun p (_ : p ∈ f.children) =>
        p.exists_retagged id kind
    have hhead : gs.head?.map Frame.id = fs.head?.map Frame.id := by
      rw [← List.head?_map, hids, List.head?_map]
    refine ⟨⟨f.id, if f.id = id then kind else f.kind, cs⟩ :: gs, ?_, ?_, fun inner => ?_⟩
    · rw [List.map_cons, List.map_cons, hids]
    · rw [frameLeaves_cons, frameLeaves_cons, hleaves, hleaves']
    · rw [frameCells_cons, frameCells_cons, List.map_cons, map_append, hcells, hcells']
      simp only [Frame.cell, hslots, hhead, retagEntry]
      split <;> rfl

/-! ## What a shape shows -/

namespace Shape

/-- The tokens of all trees, closed and open, in the order in which the trees were begun. -/
def tokens (s : Shape) : List Nat := s.roots.flatMap leaves ++ frameLeaves s.frames

/-- The trees that are inside no other. The outermost open node is the last of them. -/
def tops (s : Shape) : List Slot := s.roots.map slot ++ (s.frames.map Frame.id).getLast?.toList.map .node

/-- Closes all open nodes. -/
def closed : List Plant → List Frame → List Plant
  | roots, [] => roots
  | roots, [f] => roots ++ [.branch f.id f.kind f.children]
  | roots, f :: g :: fs =>
    closed roots ({ g with children := g.children ++ [.branch f.id f.kind f.children] } :: fs)
termination_by _ fs => fs.length

/-- Closing the frames keeps the tokens. -/
theorem leaves_closed (n : Nat) (roots : List Plant) (fs : List Frame) :
    (closed roots fs).flatMap leaves = (Shape.mk n roots fs).tokens := by
  fun_induction closed roots fs with
  | case1 => simp [tokens, frameLeaves]
  | case2 => simp [tokens, frameLeaves]
  | case3 roots f g fs ih => simp [ih, tokens, frameLeaves_cons]

theorem slots_closed (n : Nat) (roots : List Plant) (fs : List Frame) :
    (closed roots fs).map slot = (Shape.mk n roots fs).tops := by
  fun_induction closed roots fs with
  | case1 => simp [tops]
  | case2 => simp [tops, slot]
  | case3 roots f g fs ih => cases fs <;> simp [ih, tops]

end Shape

/-- Closing all open nodes leaves the trees of the shape. -/
theorem Describes.closed {b : Builder narrow} {n : Nat} {roots : List Plant} {fs : List Frame}
    (h : Describes b ⟨n, roots, fs⟩) :
    Describes (b.run (List.replicate fs.length .finish)) ⟨n, Shape.closed roots fs, []⟩ := by
  fun_induction Shape.closed roots fs generalizing b with
  | case1 => exact h
  | case2 => exact h.finishRoot
  | case3 roots f g fs ih => exact ih h.finish

/-! ## Runs -/

namespace Builder

/-- The token that a step puts into the store. Without an open node there is no place for it. -/
def accepted (b : Builder narrow) : BuildStep → List Nat
  | .push index => if b.stack = [] then [] else [narrow index]
  | _ => []

/-- The tokens that steps put into the store, in the order of the steps. -/
def pushed (b : Builder narrow) : List BuildStep → List Nat
  | [] => []
  | s :: steps => b.accepted s ++ (b.step s).pushed steps

/-- The store stands for trees that were begun one after another and have these tokens. -/
def Grown (b : Builder narrow) (tokens : List Nat) : Prop :=
  ∃ (s : Shape) (ids : List Nat), Describes b s ∧ s.tokens = tokens ∧ s.tops = ids.map .node ∧
    ids.Pairwise (· < ·) ∧
    ∀ id ∈ ids, id < s.size

section

variable {b : Builder narrow} {tokens : List Nat}

/-- A frame more, with a new number. -/
theorem Grown.start (h : b.Grown tokens) (hid : narrow b.cells.length = b.cells.length) (kind : NodeKind) :
    (b.startNode kind).Grown tokens := by
  obtain ⟨⟨n, roots, fs⟩, ids, h, rfl, htops, hsorted, hlt⟩ := h
  rw [h.size] at hid
  cases fs with
  | nil =>
    refine ⟨_, ids ++ [n], h.startRoot hid kind, ?_, ?_, ?_, ?_⟩
    · simp [Shape.tokens, frameLeaves]
    · simpa [Shape.tops] using htops
    · rw [pairwise_append]
      refine ⟨hsorted, pairwise_singleton _ _, fun id hid m hm => ?_⟩
      cases mem_singleton.mp hm
      exact hlt id hid
    · intro id hmem
      rcases mem_append.mp hmem with hmem | hmem
      · exact Nat.lt_succ_of_lt (hlt id hmem)
      · cases mem_singleton.mp hmem
        exact Nat.lt_succ_self n
  | cons f fs =>
    refine ⟨_, ids, h.start hid kind, ?_, ?_, hsorted, fun id hid => Nat.lt_succ_of_lt (hlt id hid)⟩
    · simp [Shape.tokens, frameLeaves_cons]
    · simpa [Shape.tops] using htops

/-- The token goes to the innermost frame, if there is one. -/
theorem Grown.push (h : b.Grown tokens) (index : Nat) :
    (b.pushToken index).Grown (tokens ++ if b.stack = [] then [] else [narrow index]) := by
  obtain ⟨⟨n, roots, fs⟩, ids, h, rfl, htops, hsorted, hlt⟩ := h
  cases fs with
  | nil =>
    have hstack : b.stack = [] := h.stack
    have hsame : b.withChild (.token (narrow index)) = b.cells := by simp [withChild, hstack]
    rw [if_pos hstack, append_nil, pushToken, hsame]
    exact ⟨_, ids, h, rfl, htops, hsorted, hlt⟩
  | cons f fs =>
    have hstack : b.stack = f.id :: fs.map Frame.id := h.stack
    refine ⟨_, ids, h.push index, ?_, ?_, hsorted, hlt⟩
    · simp [Shape.tokens, frameLeaves_cons, hstack]
    · cases fs <;> simpa [Shape.tops] using htops

/-- The innermost frame becomes a plant. -/
theorem Grown.finish (h : b.Grown tokens) : b.finishNode.Grown tokens := by
  obtain ⟨⟨n, roots, fs⟩, ids, h, rfl, htops, hsorted, hlt⟩ := h
  match fs with
  | [] =>
    have hstack : b.stack = [] := h.stack
    have hsame : b.finishNode = b := by simp [finishNode, hstack]
    rw [hsame]
    exact ⟨_, ids, h, rfl, htops, hsorted, hlt⟩
  | [f] =>
    refine ⟨_, ids, h.finishRoot, ?_, ?_, hsorted, hlt⟩
    · simp [Shape.tokens, frameLeaves]
    · simpa [Shape.tops, slot] using htops
  | f :: g :: fs =>
    refine ⟨_, ids, h.finish, ?_, ?_, hsorted, hlt⟩
    · simp [Shape.tokens, frameLeaves_cons]
    · cases fs <;> simpa [Shape.tops] using htops

/-- The last plant goes below a new one. -/
theorem Grown.wrap (h : b.Grown tokens) {kind : NodeKind} (hfits : ((b.wrapLast? kind).getD b).Fits) :
    ((b.wrapLast? kind).getD b).Grown tokens := by
  obtain ⟨⟨n, roots, fs⟩, ids, h, rfl, htops, hsorted, hlt⟩ := h
  have hgrown : b.Grown (Shape.mk n roots fs).tokens := ⟨_, ids, h, rfl, htops, hsorted, hlt⟩
  cases fs with
  | nil =>
    have hnone : b.wrapLast? kind = none := by simp [wrapLast?, show b.stack = [] from h.stack]
    rw [hnone]
    exact hgrown
  | cons f fs =>
    have hstack : b.stack = f.id :: fs.map Frame.id := h.stack
    have hcell : b.cells[f.id]? = some (f.cell none fs) := h.holds_cons.head
    obtain ⟨i, k, cs⟩ := f
    rcases eq_nil_or_concat cs with rfl | ⟨front, last, rfl⟩
    · have hnone : b.wrapLast? kind = none := by simp [wrapLast?, hstack, hcell, Frame.cell]
      rw [hnone]
      exact hgrown
    · rw [concat_eq_append] at *
      cases last with
      | leaf index =>
        have hnone : b.wrapLast? kind = none := by simp [wrapLast?, hstack, hcell, Frame.cell, slot]
        rw [hnone]
        exact hgrown
      | branch id k' below =>
        have hid : narrow n = n := by
          refine hfits n ?_
          simp [wrapLast?, hstack, hcell, Frame.cell, slot, h.size]
        obtain ⟨b', hb', hwrapped⟩ := Describes.wrap (f := ⟨i, k, front⟩) h hid kind
        rw [hb']
        refine ⟨_, ids, hwrapped, ?_, ?_, hsorted, fun id hid => Nat.lt_succ_of_lt (hlt id hid)⟩
        · simp [Shape.tokens, frameLeaves_cons]
        · cases fs <;> simpa [Shape.tops] using htops

/-- A kind changes, and no link. -/
theorem Grown.retag (h : b.Grown tokens) (id : Nat) (kind : NodeKind) : (b.retag id kind).Grown tokens := by
  obtain ⟨⟨n, roots, fs⟩, ids, h, rfl, htops, hsorted, hlt⟩ := h
  obtain ⟨roots', hslots, hleaves, hcells⟩ := exists_retagged_forest fun p (_ : p ∈ roots) =>
      p.exists_retagged id kind
  obtain ⟨fs', hframes, hleaves', hcells'⟩ := exists_retag_frames id kind fs
  have hshape : (Shape.mk n roots' fs').cells = (Shape.mk n roots fs).cells.map (retagEntry id kind) := by
    simp only [Shape.cells, hcells, hcells', map_append]
  refine ⟨⟨n, roots', fs'⟩, ids, ⟨?_, ?_, ?_, ?_⟩, ?_, ?_, hsorted, hlt⟩
  · exact h.stack.trans hframes.symm
  · simp only [Builder.retag, length_modify, h.size]
  · rw [hshape]
    exact h.holds.retag id kind
  · rw [hshape, map_map]
    exact h.ids
  · rw [Shape.tokens, Shape.tokens, hleaves, hleaves']
  · rw [← htops, Shape.tops, Shape.tops, hslots, hframes]

/-- **One step** adds the token that it brings to those that are there. -/
theorem Grown.step (h : b.Grown tokens) {s : BuildStep} (hfits : (b.step s).Fits) :
    (b.step s).Grown (tokens ++ b.accepted s) := by
  cases s with
  | push index => exact h.push index
  | start kind =>
    have hid := hfits b.cells.length (by rw [Builder.step, length_startNode]; omega)
    exact (append_nil tokens).symm ▸ h.start hid kind
  | finish => exact (append_nil tokens).symm ▸ h.finish
  | wrap kind => exact (append_nil tokens).symm ▸ h.wrap hfits
  | retag id kind => exact (append_nil tokens).symm ▸ h.retag id kind

/-- By `Grown.step`, one step after another. -/
theorem Grown.run (h : b.Grown tokens) {steps : List BuildStep} (hfits : (b.run steps).Fits) :
    (b.run steps).Grown (tokens ++ b.pushed steps) := by
  induction steps generalizing b tokens with
  | nil => rwa [pushed, append_nil]
  | cons s steps ih =>
    rw [run_cons, pushed, ← append_assoc]
    exact ih (h.step (Fits.before steps hfits)) hfits

end

end Builder

/-! ## Links -/

/-- The cell without the ends that closing it fills in. -/
def Cell.unended (c : Cell) : Cell := { c with first := none, last := none }

namespace Arena

/-- The node above a node. -/
def parent? (cells : List Cell) (id : Nat) : Option Nat := cells[id]?.bind Cell.parent

/-- What a node lists. -/
def children (cells : List Cell) (id : Nat) : List Slot := (cells[id]?.map Cell.children).getD []

/-- The nodes below no other, in the order in which they were begun. -/
def roots (cells : List Cell) : List Nat :=
  (List.range cells.length).filter fun id => (parent? cells id).isNone

/-- All tokens of a store, read from its roots down. -/
def reading (cells : List Cell) : List Nat := (roots cells).flatMap (tokensBelow cells)

variable (cells : List Cell)

theorem parent?_unended (id : Nat) : parent? (cells.map Cell.unended) id = parent? cells id := by
  rw [parent?, List.getElem?_map, parent?]
  cases cells[id]? <;> rfl

theorem children_unended (id : Nat) : children (cells.map Cell.unended) id = children cells id := by
  rw [children, List.getElem?_map, children]
  cases cells[id]? <;> rfl

/-- Reading a store does not ask which nodes have ended. -/
theorem gather_unended {α : Type} (onToken : Nat → List α) (onNode : Nat → NodeKind → List α → List α)
    (fuel : Nat) (slot : Slot) :
    gather (cells.map Cell.unended) onToken onNode fuel slot = gather cells onToken onNode fuel slot := by
  induction fuel generalizing slot with
  | zero => rw [gather, gather]
  | succ fuel ih =>
    cases slot with
    | token index => rw [gather, gather]
    | node id =>
      simp only [gather, List.getElem?_map, funext ih]
      cases cells[id]? <;> rfl

theorem tokensBelow_unended (id : Nat) : tokensBelow (cells.map Cell.unended) id = tokensBelow cells id := by
  rw [tokensBelow, length_map, gather_unended, tokensBelow]

theorem reading_unended : reading (cells.map Cell.unended) = reading cells := by
  simp only [reading, roots, length_map, funext (parent?_unended cells),
    funext (tokensBelow_unended cells)]

end Arena

namespace Plant

/-- A node of a stored tree is the tree itself, or another node of the tree lists it. -/
theorem parent_of_mem_cells (p : Plant) {parent : Option Nat} {e : Nat × Cell} (h : e ∈ p.cells parent) :
    (e.2.parent = parent ∧ p.slot = .node e.1) ∨
      ∃ e' ∈ p.cells parent, e.2.parent = some e'.1 ∧ .node e.1 ∈ e'.2.children := by
  induction p using induction generalizing parent with
  | leaf index =>
    rw [cells] at h
    cases h
  | branch id kind cs ih =>
    rw [cells, forestCells_eq_flatMap] at h ⊢
    rcases mem_cons.mp h with rfl | h
    · exact .inl ⟨rfl, rfl⟩
    · obtain ⟨c, hc, h⟩ := mem_flatMap.mp h
      rcases ih c hc h with ⟨hparent, hslot⟩ | ⟨e', he', hlisted⟩
      · exact .inr ⟨_, mem_cons_self, hparent, mem_map.mpr ⟨c, hc, hslot⟩⟩
      · exact .inr ⟨e', mem_cons_of_mem _ (mem_flatMap.mpr ⟨c, hc, he'⟩), hlisted⟩

theorem parent_of_mem_forestCells (ps : List Plant) {parent : Option Nat} {e : Nat × Cell}
    (h : e ∈ forestCells parent ps) :
    (e.2.parent = parent ∧ .node e.1 ∈ ps.map slot) ∨
      ∃ e' ∈ forestCells parent ps, e.2.parent = some e'.1 ∧ .node e.1 ∈ e'.2.children := by
  rw [forestCells_eq_flatMap] at h ⊢
  obtain ⟨p, hp, h⟩ := mem_flatMap.mp h
  rcases parent_of_mem_cells p h with ⟨hparent, hslot⟩ | ⟨e', he', hlisted⟩
  · exact .inl ⟨hparent, mem_map.mpr ⟨p, hp, hslot⟩⟩
  · exact .inr ⟨e', mem_flatMap.mpr ⟨p, hp, he'⟩, hlisted⟩

end Plant

namespace Builder

variable (b : Builder narrow)

/-- Finishing a node only marks its end. -/
theorem unended_finishNode : b.finishNode.cells.map Cell.unended = b.cells.map Cell.unended := by
  unfold finishNode
  split
  · rfl
  · apply ext_getElem?
    intro id
    simp only [List.getElem?_map, List.getElem?_modify]
    cases b.cells[id]? with
    | none => rfl
    | some c => simp only [Option.map_eq_map, Option.map_some]; split <;> rfl

theorem unended_run_finish (k : Nat) :
    (b.run (List.replicate k .finish)).cells.map Cell.unended = b.cells.map Cell.unended := by
  induction k generalizing b with
  | zero => rfl
  | succ k ih =>
    rw [replicate_succ, run_cons, ih]
    exact b.unended_finishNode

end Builder

/-! ## Closed forests -/

/-- The number of a child is one of its plant. -/
theorem Plant.count_slot_le (id : Nat) (cs : List Plant) :
    (cs.map slot).count (.node id) ≤ (cs.flatMap ids).count id := by
  induction cs with
  | nil => exact Nat.zero_le _
  | cons c cs ih =>
    rw [List.map_cons, flatMap_cons, count_cons, count_append]
    cases c with
    | leaf index => simpa [slot] using ih
    | branch i k ds =>
      rw [ids_branch, count_cons]
      by_cases hid : i = id
      · simp only [slot, hid, beq_self_eq_true, if_true]
        omega
      · simp only [slot, beq_iff_eq, Slot.node.injEq, hid, if_false]
        omega

section

variable {b : Builder narrow} {ps : List Plant} {n : Nat} (h : Describes b ⟨n, ps, []⟩)
include h

/-- A node is listed by the node above it. -/
theorem mem_children_of_parent? {id q : Nat} (hparent : Arena.parent? b.cells id = some q) :
    .node id ∈ Arena.children b.cells q := by
  obtain ⟨c, hc, hq⟩ := Option.bind_eq_some_iff.mp hparent
  rcases parent_of_mem_forestCells ps (mem_forestCells_of_describes h hc) with
    ⟨hnone, -⟩ | ⟨e, he, hsome, hmem⟩
  · rw [hq] at hnone
    cases hnone
  · rw [hq] at hsome
    cases hsome
    rw [Arena.children, h.holds e he]
    exact hmem

/-- **A node is listed once by the node above it**, and by no other. -/
theorem count_children (id q : Nat) :
    (Arena.children b.cells q).count (.node id) = if Arena.parent? b.cells id = some q then 1 else 0 := by
  have hmem : .node id ∈ Arena.children b.cells q ↔ Arena.parent? b.cells id = some q := by
    refine ⟨fun hmem => ?_, mem_children_of_parent? h⟩
    unfold Arena.children at hmem
    cases hc : b.cells[q]? with
    | none => simp [hc] at hmem
    | some c =>
      rw [hc] at hmem
      obtain ⟨c', hc', hparent⟩ := Option.map_eq_some_iff.mp (parent_of_describes h hc hmem)
      rw [Arena.parent?, hc']
      exact hparent
  have hle : (Arena.children b.cells q).count (.node id) ≤ 1 := by
    unfold Arena.children
    cases hc : b.cells[q]? with
    | none => exact Nat.zero_le _
    | some c =>
      obtain ⟨above, kind, cs, rfl, -, hids, -⟩ := exists_branch_of_describes h hc
      have hnodup : (branch q kind cs).ids.Nodup :=
        hids.sublist.nodup ((perm_ids_of_describes h).nodup_iff.mpr nodup_range)
      rw [ids_branch, nodup_cons] at hnodup
      exact Nat.le_trans (Plant.count_slot_le id cs) (nodup_iff_count.mp hnodup.2 id)
  split
  · next hparent => exact Nat.le_antisymm hle (count_pos_iff.mpr (hmem.mpr hparent))
  · next hparent => exact count_eq_zero_of_not_mem fun hlisted => hparent (hmem.mp hlisted)

/-- There is more below a node than below one that it lists. -/
theorem length_nodesBelow_lt {id q : Nat} (hparent : Arena.parent? b.cells id = some q) :
    (Arena.nodesBelow b.cells id).length < (Arena.nodesBelow b.cells q).length := by
  have hmem := mem_children_of_parent? h hparent
  unfold Arena.children at hmem
  cases hc : b.cells[q]? with
  | none => simp [hc] at hmem
  | some c =>
    obtain ⟨above, kind, cs, rfl, hholds, hids, -⟩ := exists_branch_of_describes h hc
    rw [hc] at hmem
    obtain ⟨p, hp, hslot⟩ := mem_map.mp hmem
    have hbelow := (infix_flatMap hp Plant.ids).length_le
    have hfuel := length_ids_lt h hids
    have hq : Arena.nodesBelow b.cells q = (branch q kind cs).ids := gather_slot _ _ _ hholds hfuel
    have hpart : Holds b.cells (p.cells (some q)) := by
      rw [cells, forestCells_eq_flatMap] at hholds
      exact fun e he => hholds.tail e (mem_flatMap.mpr ⟨p, hp, he⟩)
    rw [ids_branch, length_cons] at hfuel
    have hid : Arena.nodesBelow b.cells id = p.ids := by
      rw [Arena.nodesBelow, ← hslot]
      exact gather_slot _ _ p hpart (by omega)
    rw [hq, hid, ids_branch, length_cons]
    omega

/-- The nodes below no other are the trees themselves. -/
theorem parent?_eq_none_iff {id : Nat} :
    id < b.cells.length ∧ Arena.parent? b.cells id = none ↔ .node id ∈ ps.map slot := by
  constructor
  · rintro ⟨hlt, hnone⟩
    have hc := List.getElem?_eq_getElem hlt
    rw [Arena.parent?, hc, Option.bind_some] at hnone
    rcases parent_of_mem_forestCells ps (mem_forestCells_of_describes h hc) with ⟨-, hslot⟩ | ⟨e, -, hsome, -⟩
    · exact hslot
    · rw [hnone] at hsome
      cases hsome
  · intro hmem
    obtain ⟨p, hp, hslot⟩ := mem_map.mp hmem
    cases p with
    | leaf index => cases hslot
    | branch i kind cs =>
      cases hslot
      have hc : b.cells[id]? = some (closedCell kind none cs) := by
        refine h.holds (id, closedCell kind none cs) ?_
        rw [Shape.cells, forestCells_eq_flatMap]
        exact mem_flatMap.mpr ⟨_, hp, by rw [cells]; exact mem_cons_self⟩
      refine ⟨(List.getElem?_eq_some_iff.mp hc).1, ?_⟩
      rw [Arena.parent?, hc]
      rfl

/-- **Reading the roots reads the trees**, if the trees were begun one after another. -/
theorem reading_of_describes {ids : List Nat} (hslots : ps.map slot = ids.map .node)
    (hsorted : ids.Pairwise (· < ·)) : Arena.reading b.cells = ps.flatMap leaves := by
  have hroots : Arena.roots b.cells = ids := by
    have hrange : (Arena.roots b.cells).Pairwise (· < ·) := pairwise_lt_range.filter _
    have hmem : ∀ id, id ∈ Arena.roots b.cells ↔ id ∈ ids := by
      intro id
      rw [Arena.roots, mem_filter, mem_range, Option.isNone_iff_eq_none,
        parent?_eq_none_iff h, hslots]
      simp
    have hperm := (perm_ext_iff_of_nodup (hrange.imp Nat.ne_of_lt) (hsorted.imp Nat.ne_of_lt)).mpr hmem
    exact hperm.eq_of_pairwise (fun a b _ _ hab hba => absurd hab (Nat.lt_asymm hba)) hrange hsorted
  have hholds : Holds b.cells (forestCells none ps) := h.holds
  rw [forestCells_eq_flatMap] at hholds
  calc Arena.reading b.cells
      = (ps.map slot).flatMap (Arena.gather b.cells (fun index => [index]) (fun _ _ below => below)
          (b.cells.length + 1)) := by rw [hslots, flatMap_map, Arena.reading, hroots]; rfl
    _ = ps.flatMap leaves := by
      rw [flatMap_map]
      exact flatMap_congr fun p hp => gather_slot _ _ p (hholds.sub (infix_flatMap hp _).subset)
        (length_ids_lt h (infix_flatMap hp Plant.ids))

end

/-! ## All runs -/

theorem parent_of_getElem?_frames {fs : List Frame} {i id : Nat} (hi : (fs.map Frame.id)[i]? = some id)
    (inner : Option Nat) : ∃ c, (id, c) ∈ frameCells inner fs ∧ c.parent = (fs.map Frame.id)[i + 1]? := by
  induction fs generalizing i inner with
  | nil => cases hi
  | cons f fs ih =>
    rw [frameCells_cons]
    cases i with
    | zero =>
      cases hi
      exact ⟨_, mem_cons_self,
        by rw [Frame.cell, List.map_cons, List.getElem?_cons_succ]; cases fs <;> rfl⟩
    | succ i =>
      obtain ⟨c, hc, hparent⟩ := ih (i := i) hi (some f.id)
      exact ⟨c, mem_cons_of_mem _ (mem_append_right _ hc), hparent⟩

namespace Builder

/-- The store is a forest, and the open nodes lead from one of its nodes up to a root. -/
structure WellFormed (b : Builder narrow) : Prop where
  /-- A node is listed once by the node above it, and by no other. -/
  listed : ∀ id q, (Arena.children b.cells q).count (.node id) =
    if Arena.parent? b.cells id = some q then 1 else 0
  acyclic : ∀ id, ¬Relation.TransGen (fun child parent => Arena.parent? b.cells child = some parent) id id
  /-- The node above an open one is the next one on the stack. There is none above the last. -/
  chain : ∀ i id, b.stack[i]? = some id → id < b.cells.length ∧ Arena.parent? b.cells id = b.stack[i + 1]?
  /-- A node that is not open knows the ends of its tokens. -/
  ends : ∀ id c, b.cells[id]? = some c → id ∉ b.stack →
    c.first = (Arena.tokensBelow b.cells id).head? ∧ c.last = (Arena.tokensBelow b.cells id).getLast?

/-- Closing open nodes does not touch the others. -/
theorem getElem?_run_finish {b : Builder narrow} {id : Nat} (hid : id ∉ b.stack) (k : Nat) :
    (b.run (List.replicate k .finish)).cells[id]? = b.cells[id]? := by
  induction k generalizing b with
  | zero => rfl
  | succ k ih =>
    rw [replicate_succ, run_cons, step, finishNode]
    split
    · exact ih hid
    · next top stack hstack =>
      rw [hstack, mem_cons, not_or] at hid
      rw [ih hid.2]
      exact List.getElem?_modify_ne _ _ (Ne.symm hid.1)

/-- **What has grown is a forest**, and it reads as what has grown. -/
theorem Grown.wellFormed {b : Builder narrow} {tokens : List Nat} (h : b.Grown tokens) :
    b.WellFormed ∧ Arena.reading b.cells = tokens := by
  obtain ⟨⟨n, roots, fs⟩, ids, h, rfl, htops, hsorted, -⟩ := h
  have hclosed := h.closed
  have hsame := b.unended_run_finish fs.length
  generalize hc : b.run (List.replicate fs.length .finish) = c at hclosed hsame
  have hparent : Arena.parent? b.cells = Arena.parent? c.cells := by
    rw [← funext (Arena.parent?_unended b.cells), ← hsame, funext (Arena.parent?_unended c.cells)]
  have htokens : Arena.tokensBelow b.cells = Arena.tokensBelow c.cells := by
    rw [← funext (Arena.tokensBelow_unended b.cells), ← hsame, funext (Arena.tokensBelow_unended c.cells)]
  refine ⟨⟨?_, ?_, ?_, ?_⟩, ?_⟩
  · intro id q
    rw [← Arena.children_unended, ← hsame, Arena.children_unended, hparent]
    exact count_children hclosed id q
  · intro id hcycle
    have hrank : ∀ q, Relation.TransGen (fun child parent => Arena.parent? b.cells child = some parent) id q →
        (Arena.nodesBelow c.cells id).length < (Arena.nodesBelow c.cells q).length := by
      intro q hq
      rw [hparent] at hq
      induction hq with
      | single hstep => exact length_nodesBelow_lt hclosed hstep
      | tail _ hstep ih => exact Nat.lt_trans ih (length_nodesBelow_lt hclosed hstep)
    exact Nat.lt_irrefl _ (hrank id hcycle)
  · intro i id hi
    rw [h.stack] at hi ⊢
    obtain ⟨cell, hmem, hcell⟩ := parent_of_getElem?_frames hi none
    have hheld := h.holds (id, cell) (mem_append_left _ hmem)
    rw [Arena.parent?, hheld]
    exact ⟨(List.getElem?_eq_some_iff.mp hheld).1, hcell⟩
  · intro id cell hcell hid
    rw [← getElem?_run_finish hid fs.length, hc] at hcell
    obtain ⟨hfirst, hlast, -⟩ := tokensBelow_of_describes hclosed hcell
    rw [htokens]
    exact ⟨hfirst, hlast⟩
  · rw [← Arena.reading_unended, ← hsame, Arena.reading_unended, ← Shape.leaves_closed]
    exact reading_of_describes hclosed ((Shape.slots_closed n roots fs).trans htops) hsorted

end Builder

end SwiftOutline
