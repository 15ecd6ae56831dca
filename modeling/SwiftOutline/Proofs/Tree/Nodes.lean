import Mathlib.Data.List.Basic
import SwiftOutline.Proofs.Token.Spans
import SwiftOutline.Proofs.Tree.Visit

/-!
# `Nodes` — the nodes of a tree in source order

The nodes of a tree are listed by the tree alone, parents first. A walk that is never ended early enters those
of them above which the policy goes on everywhere, in the same order.
-/

namespace SwiftOutline

open SwiftOutline.Tree List

namespace Place

/-! ## All nodes -/

mutual

/-- The nodes of a tree that lies below `above`, parents first. -/
def nodesOfTree (above : List Tree) : Tree → List Place
  | .token _ => []
  | .node k cs => ⟨.node k cs, above⟩ :: nodesOfForest (.node k cs :: above) cs

/-- The nodes of several trees that lie below `above`, parents first and each tree after the one before. -/
def nodesOfForest (above : List Tree) : List Tree → List Place
  | [] => []
  | t :: ts => nodesOfTree above t ++ nodesOfForest above ts

end

/-- All nodes from a place down, parents first. -/
def nodes (p : Place) : List Place := nodesOfTree p.above p.tree

/-- The policy goes on at every node of a line of ancestors. -/
def goesOn (policy : Place → Verdict) (above : List Tree) : Bool :=
  (ofAncestors above).all fun a => policy a = .descend

/-- The policy goes on at every node above the place. -/
def isReached (policy : Place → Verdict) (p : Place) : Bool := goesOn policy p.above

/-! ## The nodes that a walk enters -/

variable {policy : Place → Verdict}

theorem goesOn_cons (t : Tree) (above : List Tree) : goesOn policy (t :: above) =
    (decide (policy ⟨t, above⟩ = .descend) && goesOn policy above) := by
  rw [goesOn, ofAncestors, all_cons]
  rfl

theorem nodesOfForest_eq_flatMap (above ts : List Tree) :
    nodesOfForest above ts = ts.flatMap (nodesOfTree above) := by
  induction ts with
  | nil => rw [nodesOfForest, flatMap_nil]
  | cons t ts ih => rw [nodesOfForest, flatMap_cons, ih]

variable {above : List Tree} {p q : Place}

/-- Below a node at which the walk stops, or which it does not come to, no node is reached. -/
theorem filter_nodesOfTree_eq_nil (h : goesOn policy above = false) (t : Tree) :
    (nodesOfTree above t).filter (isReached policy) = [] := by
  induction t using Tree.induction generalizing above with
  | token t => rw [nodesOfTree, filter_nil]
  | node k cs ih =>
    have hhere : isReached policy ⟨.node k cs, above⟩ = false := h
    have hbelow : goesOn policy (.node k cs :: above) = false := by
      rw [goesOn_cons, h, Bool.and_false]
    rw [nodesOfTree, filter_cons_of_neg (Bool.eq_false_iff.mp hhere), nodesOfForest_eq_flatMap,
      filter_flatMap, flatMap_eq_nil_iff]
    exact fun c hc => ih c hc hbelow

/-- A walk from a node that is reached enters the nodes below it that are reached. -/
theorem filter_nodesOfTree (hpolicy : ∀ p, policy p ≠ .halt) (h : goesOn policy above = true)
    (t : Tree) : (nodesOfTree above t).filter (isReached policy) = visited policy ⟨t, above⟩ := by
  induction t using Tree.induction generalizing above with
  | token t => rw [nodesOfTree, visited_token, filter_nil]
  | node k cs ih =>
    have hhere : isReached policy ⟨.node k cs, above⟩ = true := h
    rw [nodesOfTree, filter_cons_of_pos hhere, visited_node hpolicy, nodesOfForest_eq_flatMap,
      filter_flatMap]
    by_cases hdescend : policy ⟨.node k cs, above⟩ = .descend
    · have hbelow : goesOn policy (.node k cs :: above) = true := by
        rw [goesOn_cons, h, Bool.and_true, decide_eq_true hdescend]
      rw [if_pos hdescend, flatMap_congr fun c hc => ih c hc hbelow]
    · -- the walk passes over the children, and none of them is reached
      have hbelow : goesOn policy (.node k cs :: above) = false := by
        rw [goesOn_cons, decide_eq_false hdescend, Bool.false_and]
      rw [if_neg hdescend, flatMap_eq_nil_iff.mpr fun c _ => filter_nodesOfTree_eq_nil hbelow c]

/-- **A walk from the root enters the nodes that are reached**, in source order and each as often as it is
there. -/
theorem visited_eq_filter_nodes (hpolicy : ∀ p, policy p ≠ .halt) (t : Tree) :
    (root t).visited policy = (root t).nodes.filter (isReached policy) :=
  (filter_nodesOfTree hpolicy rfl t).symm

/-- Going on everywhere, a walk enters all nodes. -/
theorem nodes_eq_visited (t : Tree) : (root t).nodes = (root t).visited fun _ => .descend := by
  have hpolicy : ∀ _ : Place, Verdict.descend ≠ .halt := fun _ => nofun
  rw [visited_eq_filter_nodes hpolicy, filter_eq_self.mpr]
  intro p _
  rw [isReached, goesOn, all_eq_true]
  intro a _
  rfl

/-! ## Two nodes of a tree -/

theorem encloses_of_visited (hpolicy : ∀ p, policy p ≠ .halt) (h : q ∈ p.visited policy) :
    q = p ∨ p.tree.Encloses q.tree := by
  refine visited_induction hpolicy (motive := fun p q => q = p ∨ p.tree.Encloses q.tree) ?_ ?_ h
  · intro p
    exact .inl rfl
  · intro p c q _ _ hc hq _
    exact .inr ⟨c, hc, contains_of_visited hpolicy hq⟩

/-- **Two nodes of a tree** are the same, or one lies below the other, or they follow each other. -/
theorem nodes_cases {t : Tree} (hp : p ∈ (root t).nodes) (hq : q ∈ (root t).nodes) :
    q = p ∨ p.tree.Encloses q.tree ∨ q.tree.Encloses p.tree ∨ Apart t q.tree p.tree := by
  rw [nodes_eq_visited] at hp hq
  have hpolicy : ∀ _ : Place, Verdict.descend ≠ .halt := fun _ => nofun
  obtain ⟨before, after, hsplit, houtside⟩ := visited_split hpolicy hp
  rw [hsplit, append_assoc, mem_append, mem_append] at hq
  rcases hq with hq | hq | hq
  · exact .inr (.inr (houtside q (mem_append_left _ hq)))
  · exact (encloses_of_visited hpolicy hq).imp_right .inl
  · exact .inr (.inr (houtside q (mem_append_right _ hq)))

/-! ## Ancestors -/

theorem ancestors_down (p : Place) (c : Tree) : (p.down c).ancestors = p :: p.ancestors := rfl

section

variable (hpolicy : ∀ p, policy p ≠ .halt) {p q : Place}
include hpolicy

/-- What a walk enters below a place has the place among its ancestors. -/
theorem mem_ancestors_of_visited (h : q ∈ p.visited policy) : q = p ∨ p ∈ q.ancestors := by
  refine visited_induction hpolicy
    (motive := fun p q => q = p ∨ (p ∈ q.ancestors ∧ ∀ a ∈ p.ancestors, a ∈ q.ancestors))
    (fun p => .inl rfl) ?_ h |>.imp_right And.left
  rintro p c q _ _ _ _ (rfl | ⟨-, hup⟩)
  · rw [ancestors_down]
    exact .inr ⟨mem_cons_self, fun a ha => mem_cons_of_mem _ ha⟩
  · rw [ancestors_down] at hup
    exact .inr ⟨hup _ mem_cons_self, fun a ha => hup a (mem_cons_of_mem _ ha)⟩

/-- The ancestors of what a walk enters below a place are entered before it, unless they are the place's
own. -/
theorem visited_of_mem_ancestors (h : q ∈ p.visited policy) {a : Place} (ha : a ∈ q.ancestors) :
    a ∈ p.ancestors ∨ a ∈ p.visited policy := by
  refine visited_induction hpolicy
    (motive := fun p q => a ∈ q.ancestors → a ∈ p.ancestors ∨ a ∈ p.visited policy)
    (fun p ha => .inl ha) ?_ h ha
  intro p c q hnode hdescend hc hq ih ha
  obtain ⟨before, after, hwalk, -, -⟩ := visited_child hpolicy hnode hdescend hc
  rw [hwalk]
  rcases ih ha with hup | hvisited
  · rw [ancestors_down] at hup
    rcases mem_cons.mp hup with rfl | hup
    · exact .inr mem_cons_self
    · exact .inl hup
  · exact .inr (mem_cons_of_mem _ (mem_append_left _ (mem_append_right _ hvisited)))

/-- **The ancestors of a node lie one around the other**, and all around the node. -/
theorem encloses_ancestors {t : Tree} (h : q ∈ (root t).visited policy) :
    q.ancestors.Pairwise (fun a b => b.tree.Encloses a.tree) ∧ ∀ a ∈ q.ancestors, a.tree.Encloses q.tree := by
  refine visited_induction hpolicy (motive := fun p q =>
    (p.ancestors.Pairwise (fun a b => b.tree.Encloses a.tree) ∧ ∀ a ∈ p.ancestors, a.tree.Encloses p.tree) →
      q.ancestors.Pairwise (fun a b => b.tree.Encloses a.tree) ∧ ∀ a ∈ q.ancestors, a.tree.Encloses q.tree)
    (fun p hp => hp) ?_ h ⟨.nil, fun a ha => by cases ha⟩
  rintro p c q _ _ hc _ ih ⟨hchain, haround⟩
  apply ih
  rw [ancestors_down]
  refine ⟨pairwise_cons.mpr ⟨haround, hchain⟩, ?_⟩
  intro a ha
  rcases mem_cons.mp ha with rfl | ha
  · exact ⟨c, hc, .self⟩
  · -- what is around the parent is around the child
    obtain ⟨d, hd, hin⟩ := haround a ha
    exact ⟨d, hd, hin.child hc⟩

end

/-! ## Where nodes begin -/

theorem contains_of_mem_nodesOfTree {t : Tree} (h : p ∈ nodesOfTree above t) :
    t.Contains p.tree := by
  induction t using Tree.induction generalizing above with
  | token t => cases h
  | node k cs ih =>
    rw [nodesOfTree, nodesOfForest_eq_flatMap] at h
    rcases mem_cons.mp h with rfl | h
    · exact .self
    · obtain ⟨c, hc, h⟩ := mem_flatMap.mp h
      exact (Contains.child .self hc).trans (ih c hc h)

theorem contains_of_mem_nodesOfForest {ts : List Tree} (h : p ∈ nodesOfForest above ts) :
    ∃ t ∈ ts, t.Contains p.tree := by
  rw [nodesOfForest_eq_flatMap] at h
  obtain ⟨t, ht, h⟩ := mem_flatMap.mp h
  exact ⟨t, ht, contains_of_mem_nodesOfTree h⟩

/-- The first place begins no later than the second, if both hold tokens. -/
def StartsBefore (p q : Place) : Prop :=
  p.tree.tokens ≠ [] → q.tree.tokens ≠ [] → p.span.start ≤ q.span.start

theorem startsBefore_of_sublist {ts : List Token} (hts : Token.Ordered ts)
    (h : (p.tree.tokens ++ q.tree.tokens).Sublist ts) : StartsBefore p q := by
  intro hp hq
  have hordered := hts.sublist h
  have hbetween := hordered.stop_le_start hp hq
  have hlt := (hordered.sublist (sublist_append_left _ _)).start_lt_stop hp
  show (Token.spanOf p.tree.tokens).start ≤ (Token.spanOf q.tree.tokens).start
  omega

mutual

/-- **The nodes of a tree begin one after another**, where the tokens follow each other. -/
theorem pairwise_start_nodesOfTree {above : List Tree} :
    (t : Tree) → Token.Ordered t.tokens → (nodesOfTree above t).Pairwise StartsBefore
  | .token _, _ => .nil
  | .node k cs, h => by
    rw [nodesOfTree, pairwise_cons]
    refine ⟨?_, pairwise_start_nodesOfForest cs (by rwa [tokens_node] at h)⟩
    -- what lies below a node begins within it
    intro q hq _ hne
    obtain ⟨c, hc, hin⟩ := contains_of_mem_nodesOfForest hq
    have hcontains := (Contains.child (.self (t := .node k cs)) hc).trans hin
    exact (Span.isWithin_iff.mp (h.isWithin_spanOf hcontains.tokens_isInfix.sublist hne)).1

theorem pairwise_start_nodesOfForest {above : List Tree} :
    (ts : List Tree) → Token.Ordered (forestTokens ts) → (nodesOfForest above ts).Pairwise StartsBefore
  | [], _ => .nil
  | t :: ts, h => by
    rw [forestTokens_cons] at h
    rw [nodesOfForest, pairwise_append]
    refine ⟨pairwise_start_nodesOfTree t (h.sublist (sublist_append_left _ _)),
      pairwise_start_nodesOfForest ts (h.sublist (sublist_append_right _ _)), ?_⟩
    intro p hp q hq
    obtain ⟨u, hu, hin⟩ := contains_of_mem_nodesOfForest hq
    have hfirst := (contains_of_mem_nodesOfTree hp).tokens_isInfix.sublist
    have hsecond := (hin.tokens_isInfix.trans (tokens_isInfix_of_mem hu)).sublist
    exact startsBefore_of_sublist h (hfirst.append hsecond)

end

end Place

end SwiftOutline
