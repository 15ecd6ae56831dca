import SwiftOutline.Proofs.Tree.Arena
import SwiftOutline.Proofs.Tree.Relabel

/-!
# `Lossless` — stores that are trees

A store that holds one tree and nothing else keeps the tokens of the tree: read from its root it gives
every token once and in order, every cell is reached once, links up and down agree, and each cell knows
the ends of the tokens below it, which lie side by side. Which tree it is that a store holds is said by
`Stands`.
-/

namespace SwiftOutline

open Plant SwiftOutline.Tree List

/-! ## Tokens side by side -/

theorem eq_range'_of_isInfix {l : List Nat} {a n : Nat} (h : l <:+: List.range' a n) :
    ∃ b, l = List.range' b l.length := by
  obtain ⟨s, t, h⟩ := h
  refine ⟨a + s.length, ?_⟩
  have hdrop : l ++ t = List.range' (a + s.length) (n - s.length) := by
    have hboth := congrArg (List.drop s.length) h
    rw [append_assoc, drop_left, drop_range', Nat.mul_one] at hboth
    exact hboth
  have hlen := congrArg List.length hdrop
  rw [length_append, length_range'] at hlen
  rw [show n - s.length = l.length + t.length by omega, ← List.range'_append_1] at hdrop
  exact (append_inj hdrop (by rw [length_range'])).1

/-- A cell with the ends of a run of neighbouring tokens covers the run. -/
theorem covered_of_isInfix {l : List Nat} {a n : Nat} {c : Cell} (h : l <:+: List.range' a n)
    (hfirst : c.first = l.head?) (hlast : c.last = l.getLast?) : c.covered = l := by
  obtain ⟨b, hl⟩ := eq_range'_of_isInfix h
  cases hlen : l.length with
  | zero =>
    have hnil := length_eq_zero_iff.mp hlen
    rw [hnil, List.head?_nil] at hfirst
    rw [hnil]
    unfold Cell.covered
    rw [hfirst]
  | succ m =>
    rw [hlen] at hl
    rw [hl, List.head?_range', if_neg (Nat.succ_ne_zero m)] at hfirst
    rw [hl, List.getLast?_range', if_neg (Nat.succ_ne_zero m)] at hlast
    unfold Cell.covered
    rw [hfirst, hlast, hl]
    show List.range' b (b + (m + 1) - 1 + 1 - b) = List.range' b (m + 1)
    rw [show b + (m + 1) - 1 + 1 - b = m + 1 by omega]

theorem drop_prefix_cons {all xs ys : List Token} {index : Nat} (h : xs ++ ys <+: all.drop index) :
    xs <+: all.drop index ∧ ys <+: all.drop (index + xs.length) := by
  obtain ⟨zs, hzs⟩ := h
  refine ⟨⟨ys ++ zs, by rw [← hzs, append_assoc]⟩, ⟨zs, ?_⟩⟩
  rw [← drop_drop, ← hzs, append_assoc, drop_left]

/-! ## The trees that stored trees stand for -/

/-- **Stored trees stand for trees**: they have the same nodes, over the tokens from the one at `index` on. -/
inductive Stands : (index : Nat) → List Tree → List Plant → Prop
  | nil (index : Nat) : Stands index [] []
  | leaf {index : Nat} {t : Token} {f : List Tree} {ps : List Plant} (next : Stands (index + 1) f ps) :
    Stands index (.token t :: f) (.leaf index :: ps)
  | branch {index id : Nat} {kind : NodeKind} {cs f : List Tree} {qs ps : List Plant}
    (below : Stands index cs qs)
    (next : Stands (index + (forestTokens cs).length) f ps) :
    Stands index (.node kind cs :: f) (.branch id kind qs :: ps)

namespace Stands

variable {index : Nat} {f : List Tree} {ps : List Plant}

/-- Trees are stored one after another. -/
theorem append {g : List Tree} {qs : List Plant} (hf : Stands index f ps)
    (hg : Stands (index + (forestTokens f).length) g qs) : Stands index (f ++ g) (ps ++ qs) := by
  induction hf with
  | nil index => exact hg
  | leaf _ ih =>
    refine .leaf (ih ?_)
    rwa [forestTokens_cons, tokens_token, length_append, length_singleton, ← Nat.add_assoc] at hg
  | branch below _ _ ih =>
    refine .branch below (ih ?_)
    rwa [forestTokens_cons, tokens_node, length_append, ← Nat.add_assoc] at hg

/-- A node alone is stored as a node. -/
theorem exists_branch {kind : NodeKind} {cs : List Tree} (h : Stands index [.node kind cs] ps) :
    ∃ id qs, ps = [.branch id kind qs] ∧ Stands index cs qs := by
  cases h with
  | branch below next =>
    cases next
    exact ⟨_, _, rfl, below⟩

/-- **The tokens of stored trees are in order**, numbered from the one that they begin with. -/
theorem leaves_eq (h : Stands index f ps) :
    ps.flatMap leaves = List.range' index (forestTokens f).length := by
  induction h with
  | nil index => rfl
  | leaf _ ih =>
    rw [flatMap_cons, leaves_leaf, ih, forestTokens_cons, tokens_token, length_append,
      length_singleton, Nat.add_comm 1, List.range'_succ]
    rfl
  | branch _ _ ihbelow ihnext =>
    rw [flatMap_cons, leaves_branch, ihbelow, ihnext, forestTokens_cons, tokens_node, length_append,
      List.range'_append_1]

/-- **Stored trees read back as the trees**, over tokens that hold those of the trees where they begin. -/
theorem fold_eq {all : List Token} (h : Stands index f ps) (hall : forestTokens f <+: all.drop index) :
    foldForest (fun i => all[i]?.toList.map .token) (fun _ k below => [.node k below]) ps = f := by
  induction h with
  | nil index => rw [foldForest]
  | @leaf index t f ps _ ih =>
    rw [forestTokens_cons, tokens_token] at hall
    obtain ⟨ht, hf⟩ := drop_prefix_cons hall
    have hget : all[index]? = some t := by
      obtain ⟨zs, hzs⟩ := ht
      rw [← List.head?_drop, ← hzs]
      rfl
    rw [foldForest, fold, hget, ih hf]
    rfl
  | branch _ _ ihbelow ihnext =>
    rw [forestTokens_cons, tokens_node] at hall
    obtain ⟨hbelow, hnext⟩ := drop_prefix_cons hall
    rw [foldForest, fold, ihbelow hbelow, ihnext hnext]
    rfl

end Stands

/-! ## Stores that are trees -/

/-- **A store is a tree over `count` tokens**, with its root in the first cell. -/
structure Arena.Lossless (cells : List Cell) (count : Nat) : Prop where
  /-- Every token is met once, in order. -/
  tokens : tokensBelow cells 0 = List.range count
  /-- Every cell is met once. -/
  nodes : (nodesBelow cells 0).Perm (List.range cells.length)
  /-- The root is below nothing. -/
  root : cells[0]?.map Cell.parent = some none
  /-- A child's parent is the node that lists it. -/
  parents : ∀ {id child c}, cells[id]? = some c → .node child ∈ c.children →
    cells[child]?.map Cell.parent = some (some id)
  /-- A node knows its first token. -/
  first : ∀ {id c}, cells[id]? = some c → c.first = (tokensBelow cells id).head?
  /-- A node knows its last token. -/
  last : ∀ {id c}, cells[id]? = some c → c.last = (tokensBelow cells id).getLast?
  /-- The tokens of a node are all those from its first to its last. -/
  covered : ∀ {id c}, cells[id]? = some c → c.covered = tokensBelow cells id
  /-- A node without a first token has none at all. -/
  vacant : ∀ {id c}, cells[id]? = some c → (c.first = none ↔ tokensBelow cells id = [])

section

variable {narrow : Nat → Nat} {b : Builder narrow} {ps : List Plant} {n : Nat}

theorem perm_ids_of_describes (h : Describes b ⟨n, ps, []⟩) :
    (ps.flatMap Plant.ids).Perm (List.range b.cells.length) := by
  rw [h.size, ← map_fst_forestCells none]
  exact h.ids

variable {id : Nat} {c : Cell}

/-- Every cell of the store is a cell of the stored trees. -/
theorem mem_forestCells_of_describes (h : Describes b ⟨n, ps, []⟩) (hc : b.cells[id]? = some c) :
    (id, c) ∈ forestCells none ps := by
  have hmem : id ∈ (forestCells none ps).map Prod.fst := by
    rw [map_fst_forestCells, (perm_ids_of_describes h).mem_iff, mem_range]
    exact (List.getElem?_eq_some_iff.mp hc).1
  obtain ⟨e, he, rfl⟩ := mem_map.mp hmem
  rw [h.holds e he] at hc
  cases hc
  exact he

/-- Every cell of the store belongs to a node of the stored trees, and the node can be read from it. -/
theorem exists_branch_of_describes (h : Describes b ⟨n, ps, []⟩) (hc : b.cells[id]? = some c) :
    ∃ above kind cs, c = closedCell kind above cs ∧ Holds b.cells ((branch id kind cs).cells above) ∧
      (branch id kind cs).ids <:+: ps.flatMap Plant.ids ∧
      cs.flatMap leaves <:+: ps.flatMap leaves := by
  obtain ⟨above, kind, cs, heq, hcells, hleaves⟩ :=
    exists_branch_of_mem_forestCells ps (mem_forestCells_of_describes h hc)
  refine ⟨above, kind, cs, (Prod.mk.inj heq).2, Holds.sub h.holds hcells.subset, ?_, hleaves⟩
  have hids := hcells.map Prod.fst
  rwa [map_fst_cells, map_fst_forestCells] at hids

/-- A store has fuel enough for all of its nodes. -/
theorem length_ids_lt (h : Describes b ⟨n, ps, []⟩) {ids : List Nat} (hids : ids <:+: ps.flatMap Plant.ids) :
    ids.length < b.cells.length + 1 := by
  have hle := hids.length_le
  rw [(perm_ids_of_describes h).length_eq, length_range] at hle
  exact Nat.lt_succ_of_le hle

/-- The tokens below a cell are those of its node. -/
theorem tokensBelow_of_describes (h : Describes b ⟨n, ps, []⟩) (hc : b.cells[id]? = some c) :
    c.first = (Arena.tokensBelow b.cells id).head? ∧ c.last = (Arena.tokensBelow b.cells id).getLast? ∧
      Arena.tokensBelow b.cells id <:+: ps.flatMap leaves := by
  obtain ⟨above, kind, cs, rfl, hholds, hids, hleaves⟩ := exists_branch_of_describes h hc
  have hbelow : Arena.tokensBelow b.cells id = cs.flatMap leaves := by
    have hread := gather_slot (fun index => [index]) (fun _ _ below => below)
      (branch id kind cs) hholds (length_ids_lt h hids)
    rw [← leaves_branch id kind]
    exact hread
  rw [hbelow]
  exact ⟨rfl, rfl, hleaves⟩

/-- A node listed as a child has the node that lists it as its parent. -/
theorem parent_of_describes (h : Describes b ⟨n, ps, []⟩) {child : Nat}
    (hc : b.cells[id]? = some c) (hchild : .node child ∈ c.children) :
    b.cells[child]?.map Cell.parent = some (some id) := by
  obtain ⟨above, kind, cs, rfl, hholds, -, -⟩ := exists_branch_of_describes h hc
  obtain ⟨q, hq, hslot⟩ := mem_map.mp hchild
  cases q with
  | leaf index => cases hslot
  | branch id' kind' cs' =>
    cases hslot
    rw [cells, forestCells_eq_flatMap] at hholds
    have hcell := hholds.tail (child, closedCell kind' (some id) cs') (mem_flatMap.mpr
      ⟨_, hq, by rw [cells]; exact mem_cons_self⟩)
    rw [hcell]
    rfl

end

section

variable {narrow : Nat → Nat} {b : Builder narrow} {n : Nat} {root : NodeKind} {cs :
  List Tree} {ps : List Plant}
  (h : Describes b ⟨n, [.branch 0 root ps], []⟩) (hstands : Stands 0 cs ps)
include h hstands

/-- **A store that holds a tree under a root and nothing else is lossless.** -/
theorem lossless_of_describes : Arena.Lossless b.cells (forestTokens cs).length := by
  have hholds : Holds _ (forestCells none _) := h.holds
  have hperm := perm_ids_of_describes h
  have hfuel := length_ids_lt h infix_rfl
  rw [forestCells_singleton] at hholds
  rw [flatMap_singleton] at hperm hfuel
  have hleaves : ([.branch 0 root ps] : List Plant).flatMap leaves =
      List.range' 0 (forestTokens cs).length := by
    rw [flatMap_singleton, leaves_branch, hstands.leaves_eq]
  have hpart : ∀ {id c}, b.cells[id]? = some c →
      Arena.tokensBelow b.cells id <:+: List.range' 0 (forestTokens cs).length :=
    fun hc => hleaves ▸ (tokensBelow_of_describes h hc).2.2
  refine ⟨?_, ?_, ?_, ?_, ?_, ?_, ?_, ?_⟩
  · have hread : Arena.tokensBelow b.cells 0 = (branch 0 root ps).leaves :=
      gather_slot (fun index => [index]) (fun _ _ below => below) _ hholds hfuel
    rw [range_eq_range', ← hleaves, hread, flatMap_singleton]
  · have hread : Arena.nodesBelow b.cells 0 = (branch 0 root ps).ids :=
      gather_slot (fun _ => []) (fun id _ below => id :: below) _ hholds hfuel
    rwa [hread]
  · rw [cells] at hholds
    rw [show b.cells[0]? = _ from hholds.head]
    rfl
  · exact fun hc hchild => parent_of_describes h hc hchild
  · exact fun hc => (tokensBelow_of_describes h hc).1
  · exact fun hc => (tokensBelow_of_describes h hc).2.1
  · exact fun hc => covered_of_isInfix (hpart hc) (tokensBelow_of_describes h hc).1
      (tokensBelow_of_describes h hc).2.1
  · intro id c hc
    rw [(tokensBelow_of_describes h hc).1, List.head?_eq_none_iff]

/-- Such a store reads back as the tree, by `gather_slot` and `Stands.fold_eq`. -/
theorem treesBelow_of_describes : Arena.treesBelow b.cells (forestTokens cs) 0 = [node root cs] := by
  have hholds : Holds _ (forestCells none _) := h.holds
  have hfuel := length_ids_lt h infix_rfl
  rw [forestCells_singleton] at hholds
  rw [flatMap_singleton] at hfuel
  have hread := gather_slot (fun i => (forestTokens cs)[i]?.toList.map token)
      (fun _ k below => [node k below]) _
    hholds hfuel
  rw [fold, hstands.fold_eq prefix_rfl] at hread
  exact hread

end

end SwiftOutline
