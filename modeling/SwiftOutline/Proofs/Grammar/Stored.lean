import SwiftOutline.Grammar.Store
import SwiftOutline.Proofs.Grammar.Agreement
import SwiftOutline.Proofs.Tree.Lossless

/-!
# `Stored` — the calls of the builder store the tree

The rules that read a text make its tree, and the same rules make the calls that store it. The two are
related piece by piece: whatever trees are read, the calls made for them add these trees to the node that
is open (`Stores`). Every way of making something keeps that (`respects_stores`), so it holds of all that
the grammar reads (`Agree.item`), and the calls for a whole text leave a store that is its tree. In
particular there is always a node to wrap where a node is to be wrapped.

Numbers have to fit into what is kept of them. Below `room` they do.
-/

namespace SwiftOutline

open Plant SwiftOutline.Tree List

variable {narrow : Nat → Nat} {room : Nat}

/-- **The calls store the trees** behind the children of the innermost open node, if there is room for
them. -/
def Stores (room : Nat) (f : List Tree) (calls : Calls narrow) : Prop :=
  ∀ ⦃b : Builder narrow⦄ ⦃n : Nat⦄ ⦃roots : List Plant⦄ ⦃fr : Frame⦄ ⦃fs : List Frame⦄ (index : Nat),
    Describes b ⟨n, roots, fr :: fs⟩ → n + forestNodeCount f ≤ room → index + (forestTokens f).length ≤ room →
      ∃ b' ps, calls b index = some (b', index + (forestTokens f).length) ∧
        Describes b' ⟨n + forestNodeCount f, roots, { fr with children := fr.children ++ ps } :: fs⟩ ∧
        Stands index f ps

theorem forestNodeCount_append (f g : List Tree) :
    forestNodeCount (f ++ g) = forestNodeCount f + forestNodeCount g := by
  induction f with
  | nil => rw [nil_append, forestNodeCount, Nat.zero_add]
  | cons t f ih => rw [cons_append, forestNodeCount, forestNodeCount, ih, Nat.add_assoc]

theorem forestNodeCount_map_token (ts : List Token) : forestNodeCount (ts.map token) = 0 := by
  induction ts with
  | nil => rw [map_nil, forestNodeCount]
  | cons t ts ih => rw [List.map_cons, forestNodeCount, nodeCount, Nat.zero_add, ih]

theorem forestNodeCount_node (kind : NodeKind) (f : List Tree) :
    forestNodeCount [node kind f] = forestNodeCount f + 1 := by
  rw [forestNodeCount, forestNodeCount, nodeCount, Nat.add_zero]

/-! ## The ways of making calls -/

section

variable (hroom : ∀ i < room, narrow i = i)
include hroom

/-- Tokens are pushed one by one. -/
theorem describes_push {b : Builder narrow} {n : Nat} {roots : List Plant} {fr : Frame} {fs : List Frame}
    (h : Describes b ⟨n, roots, fr :: fs⟩) (ts : List Token) (index : Nat)
    (hindex : index + ts.length ≤ room) : ∃ b' ps, Calls.push b index ts = (b', index + ts.length) ∧
      Describes b' ⟨n, roots, { fr with children := fr.children ++ ps } :: fs⟩ ∧
        Stands index (ts.map .token) ps := by
  induction ts generalizing b index fr with
  | nil => exact ⟨b, [], rfl, by rwa [append_nil], .nil index⟩
  | cons t ts ih =>
    rw [length_cons] at hindex
    have hpushed := h.push index
    rw [hroom index (by omega)] at hpushed
    obtain ⟨b', ps, hpush, hb', hps⟩ := ih hpushed (index + 1) (by omega)
    refine ⟨b', .leaf index :: ps, ?_, ?_, .leaf hps⟩
    · rw [Calls.push, hpush, length_cons, Nat.add_assoc, Nat.add_comm 1]
    · rwa [append_assoc] at hb'

theorem stores_tokens (ts : List Token) : Stores room (ts.map .token) (Yield.tokens ts : Calls narrow) := by
  intro b n roots fr fs index h _ hindex
  rw [forestTokens_map_token] at hindex ⊢
  obtain ⟨b', ps, hpush, hb', hps⟩ := describes_push hroom h ts index hindex
  refine ⟨b', ps, congrArg some hpush, ?_, hps⟩
  rwa [forestNodeCount_map_token]

omit hroom in
theorem stores_append {f g : List Tree} {calls calls' : Calls narrow} (hf : Stores room f calls)
    (hg : Stores room g calls') : Stores room (f ++ g) (calls ++ calls') := by
  intro b n roots fr fs index h hnodes hindex
  rw [forestNodeCount_append] at hnodes ⊢
  rw [forestTokens_append, length_append] at hindex ⊢
  obtain ⟨b₁, ps, hcalls, h₁, hps⟩ := hf index h (by omega) (by omega)
  obtain ⟨b₂, qs, hcalls', h₂, hqs⟩ := hg _ h₁ (by omega) (Nat.add_assoc .. ▸ hindex)
  refine ⟨b₂, ps ++ qs, ?_, ?_, hps.append hqs⟩
  · show (calls b index).bind _ = _
    rw [hcalls, Option.bind_some, hcalls', Nat.add_assoc]
  · rwa [append_assoc, Nat.add_assoc] at h₂

/-- A node is opened, filled and closed. -/
theorem stores_node {f : List Tree} {calls : Calls narrow} (kind : NodeKind) (hf : Stores room f calls) :
    Stores room [node kind f] (Yield.node kind calls) := by
  intro b n roots fr fs index h hnodes hindex
  rw [forestNodeCount_node] at hnodes ⊢
  rw [forestTokens_singleton, tokens_node] at hindex ⊢
  obtain ⟨b', ps, hcalls, h', hps⟩ := hf index (h.start (hroom n (by omega)) kind) (by omega) hindex
  refine ⟨b'.finishNode, [.branch n kind ps], ?_, ?_, .branch hps (.nil _)⟩
  · show (calls (b.startNode kind) index).map Calls.close = _
    rw [hcalls]
    rfl
  · rw [Nat.add_right_comm, Nat.add_assoc] at h'
    exact h'.finish

/-- A node that is retagged has the children that it had. -/
theorem stores_closing {f g : List Tree} {calls calls' : Calls narrow} (first kind : NodeKind)
    (hf : Stores room f calls) (hg : Stores room g calls') :
    Stores room [node kind (f ++ g)] (Yield.closing first kind calls calls') := by
  intro b n roots fr fs index h hnodes hindex
  rw [forestNodeCount_node, forestNodeCount_append] at hnodes ⊢
  rw [forestTokens_singleton, tokens_node, forestTokens_append, length_append] at hindex ⊢
  have hn := hroom n (by omega)
  obtain ⟨b₁, ps, hcalls, h₁, hps⟩ := hf index (h.start hn first) (by omega) (by omega)
  have h₁' : Describes (if kind = first then b₁ else b₁.retag b.nextId kind)
      ⟨n + 1 + forestNodeCount f, roots,
      ⟨n, kind, [] ++ ps⟩ :: fr :: fs⟩ := by
    split
    · next hkind => exact hkind ▸ h₁
    · rw [h.nextId hn]
      exact h₁.retag kind
  obtain ⟨b₂, qs, hcalls', h₂, hqs⟩ := hg _ h₁' (by omega) (Nat.add_assoc .. ▸ hindex)
  refine ⟨b₂.finishNode, [.branch n kind (ps ++ qs)], ?_, ?_, .branch (hps.append hqs) (.nil _)⟩
  · show ((calls (b.startNode first) index).bind _).map Calls.close = _
    rw [hcalls, Option.bind_some, hcalls', ← Nat.add_assoc]
    rfl
  · rw [show n + 1 + forestNodeCount f + forestNodeCount g =
      n + (forestNodeCount f + forestNodeCount g + 1) by omega] at h₂
    exact h₂.finish

/-- **There is a node to put a node around**, the one that was stored last. -/
theorem stores_wrap {k : NodeKind} {cs g : List Tree} {calls calls' : Calls narrow} (kind : NodeKind)
    (hf : Stores room [node k cs] calls) (hg : Stores room g calls') :
    Stores room [node kind ([node k cs] ++ g)] (Yield.wrap kind calls calls') := by
  intro b n roots fr fs index h hnodes hindex
  rw [forestNodeCount_node, forestNodeCount_append] at hnodes ⊢
  rw [forestTokens_singleton, tokens_node, forestTokens_append, length_append] at hindex ⊢
  obtain ⟨b₁, ps, hcalls, h₁, hps⟩ := hf index h (by omega) (by omega)
  obtain ⟨id, below, rfl, -⟩ := hps.exists_branch
  obtain ⟨b₂, hwrap, h₂⟩ := h₁.wrap (hroom _ (by omega)) kind
  obtain ⟨b₃, qs, hcalls', h₃, hqs⟩ := hg _ h₂ (by omega) (Nat.add_assoc .. ▸ hindex)
  refine ⟨b₃.finishNode, [.branch (n + forestNodeCount [node k cs]) kind ([.branch id k below] ++ qs)], ?_,
    ?_, .branch (hps.append hqs) (.nil _)⟩
  · show (calls b index).bind _ = _
    rw [hcalls, Option.bind_some, hwrap, Option.bind_some, hcalls', ← Nat.add_assoc]
    rfl
  · rw [Nat.add_right_comm, Nat.add_assoc n, Nat.add_assoc n] at h₃
    exact h₃.finish

/-- **Every way of making something keeps calls that store trees.** -/
theorem respects_stores : Yield.Respects (F := Calls narrow) (Stores room) where
  tokens := stores_tokens hroom
  append := stores_append
  node := stores_node hroom
  closing := stores_closing hroom
  wrap := stores_wrap hroom

end

/-! ## Texts -/

/-- **The outcome of storing a text is its tree**, over the tokens of the text and without loss. -/
def Tree.IsStored (tree : Tree) (source : String) (stored : Except ParseError (Option (List Cell))) : Prop :=
  ∃ tokens cells, tokenize source = .ok tokens ∧ tree.tokens = tokens ∧ stored = .ok (some cells) ∧
    Arena.Lossless cells tokens.length ∧ Arena.treesBelow cells tokens 0 = [tree]

/-- A node is opened when none is open, filled and closed. -/
theorem describes_root {f : List Tree} {calls : Calls narrow} (hroom : ∀ i < room, narrow i = i)
    (root : NodeKind) (hf : Stores room f calls) (hnodes : forestNodeCount f + 1 ≤ room)
    (htokens : (forestTokens f).length ≤ room) :
    ∃ (b : Builder narrow) (n : Nat) (ps : List Plant), (Yield.node root calls Builder.empty 0).map
      (fun p => p.1.cells) = some b.cells ∧
      Describes b ⟨n, [.branch 0 root ps], []⟩ ∧ Stands 0 f ps := by
  obtain ⟨b, ps, hcalls, h, hps⟩ :=
    hf 0 (describes_empty.startRoot (hroom 0 (by omega)) root) (by omega) (by omega)
  refine ⟨b.finishNode, _, ps, ?_, h.finishRoot, hps⟩
  show ((calls (Builder.empty.startNode root) 0).map Calls.close).map _ = _
  rw [hcalls]
  rfl

theorem isStored_of_parseWith {root : NodeKind} {p : Rule} {q : Rule (Calls narrow)} {source : String}
    {tree : Tree} (hroom : ∀ i < room, narrow i = i) (hnodes : tree.nodeCount ≤ room)
    (hcount : tree.tokens.length ≤ room)
    (hagree : ∀ bound, Rule.Agree (Stores room) (fun _ => False) bound p q)
    (hrest : ∀ {ts trees rest}, p ts = .ok (trees, rest) → rest = [])
    (h : parseWith root p source = .ok tree) : tree.IsStored source (storeWith root q source) := by
  obtain ⟨tokens, trees, rest, htokens, hok, rfl⟩ := parseWith_eq_ok h
  have hkeeps := (hagree 0).keeps hok
  rw [hrest hok, append_nil] at hkeeps
  obtain ⟨calls, hcalls, hstores⟩ :=
    Rule.SameBut.exists_ok (hok ▸ (hagree (tokens.length + 1)).outcome (Nat.lt_succ_self _))
  rw [nodeCount] at hnodes
  rw [tokens_node] at hcount
  obtain ⟨b, n, ps, hcells, hb, hps⟩ := describes_root hroom root hstores hnodes hcount
  refine ⟨tokens, b.cells, htokens, by rw [tokens_node, hkeeps], ?_, ?_, ?_⟩
  · simp only [storeWith, htokens, hcalls, hcells]
  · exact hkeeps ▸ lossless_of_describes hb hps
  · exact hkeeps ▸ treesBelow_of_describes hb hps

section

variable {source : String} {tree : Tree} (hroom : ∀ i < max tree.nodeCount tree.tokens.length, narrow i = i)
include hroom

theorem isStored_of_parseSource (h : parseSource source = .ok tree) :
    tree.IsStored source (storeSource narrow source) := by
  have hR := respects_stores hroom
  refine isStored_of_parseWith hroom (Nat.le_max_left ..) (Nat.le_max_right ..)
    (fun bound => ?_) Rule.rest_of_sourceItems h
  exact Rule.Agree.many hR (.item hR nestingLimit) _

theorem isStored_of_parseType (h : parseType source = .ok tree) :
    tree.IsStored source (storeType narrow source) := by
  have hR := respects_stores hroom
  refine isStored_of_parseWith hroom (Nat.le_max_left ..) (Nat.le_max_right ..)
    (fun bound => ?_) Rule.rest_of_soleType h
  exact Rule.Agree.schematic hR (.type hR nestingLimit) (.item hR 0) (Schematic.soleType (n := 0))

/-- **A parsed text is stored without loss** by the calls that the rules make while they read it, as long
as the numbers of its nodes and tokens are kept as they are: it has exactly the tokens of the text, and
the store is a tree over them that reads back as the tree of the text. -/
theorem parse_lossless :
    (parseSource source = .ok tree → tree.IsStored source (storeSource narrow source)) ∧
      (parseType source = .ok tree → tree.IsStored source (storeType narrow source)) :=
  ⟨isStored_of_parseSource hroom, isStored_of_parseType hroom⟩

end

/-- An optional put around a closure, a member type around a name, and attributes in front, stored in 32
bits. -/
theorem parse_lossless_wrapped : ∃ text tree, text = "(@escaping (inout [A: B.C?]) async -> ())?" ∧
    parseType text = .ok tree ∧ tree.IsStored text (storeType idOf text) := by
  refine (exists_ok_of_test (P := fun tree => max tree.nodeCount tree.tokens.length < UInt32.size)
    (by decide +kernel)).elim fun tree h => ⟨_, tree, rfl, h.1, ?_⟩
  exact (parse_lossless fun i hi => Nat.mod_eq_of_lt (Nat.lt_trans hi h.2)).2 h.1

end SwiftOutline
