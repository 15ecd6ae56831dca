import SwiftOutline.Proofs.Tree.Moved
import SwiftOutline.Tree.Traversal

/-!
# `Visit` — the nodes that a walk enters

A walk that is never ended early enters a node and then, if the policy says so, what is below it. What a walk
from a node enters does not depend on what stands above the node, so it is a stretch of every walk that comes
to it.
-/

namespace SwiftOutline

open List

namespace Tree

/-- The one tree lies below the other. -/
def Encloses (t u : Tree) : Prop := ∃ c ∈ t.children, c.Contains u

/-- Two parts of a tree follow each other. -/
def Apart (t u v : Tree) : Prop :=
  (u.tokens ++ v.tokens).Sublist t.tokens ∨ (v.tokens ++ u.tokens).Sublist t.tokens

theorem Encloses.contains {t u : Tree} (h : t.Encloses u) : t.Contains u := by
  obtain ⟨c, hc, hu⟩ := h
  exact (Contains.child .self hc).trans hu

theorem Apart.mono {t t' u v : Tree} (h : Apart t u v) (ht : t.tokens.Sublist t'.tokens) : Apart t' u v :=
  h.imp (fun h => h.trans ht) (fun h => h.trans ht)

end Tree

open SwiftOutline.Tree

namespace Place

/-! ## One level at a time -/

mutual

theorem walkTree_ends {policy : Place → Verdict} (hpolicy : ∀ p, policy p ≠ .halt) (above : List Tree) :
    (t : Tree) → (walkTree policy above t).2 = true
  | .token _ => by rw [walkTree]
  | .node k cs => by
    have hforest := walkForest_ends hpolicy (.node k cs :: above) cs
    rw [walkTree]
    split
    · next h => exact absurd h (hpolicy _)
    · rfl
    · split
      · rfl
      · next heq =>
        rw [heq] at hforest
        cases hforest

theorem walkForest_ends {policy : Place → Verdict} (hpolicy : ∀ p, policy p ≠ .halt) (above : List Tree) :
    (ts : List Tree) → (walkForest policy above ts).2 = true
  | [] => by rw [walkForest]
  | t :: ts => by
    have htree := walkTree_ends hpolicy above t
    have hforest := walkForest_ends hpolicy above ts
    rw [walkForest]
    split
    · exact hforest
    · next heq =>
      rw [heq] at htree
      cases htree

end

variable {policy : Place → Verdict} (hpolicy : ∀ p, policy p ≠ .halt)
include hpolicy

/-- A walk that is not ended enters a node, goes through its children if the policy says so, and leaves it. -/
theorem events_node (above : List Tree) (k : NodeKind) (cs : List Tree) :
    (walkTree policy above (.node k cs)).1 = .enter ⟨.node k cs, above⟩ ::
      ((if policy ⟨.node k cs, above⟩ =
        .descend then (walkForest policy (.node k cs :: above) cs).1 else []) ++
        [.leave ⟨.node k cs, above⟩]) := by
  have hends := walkForest_ends hpolicy (.node k cs :: above) cs
  rw [walkTree]
  cases hverdict : policy ⟨.node k cs, above⟩ with
  | halt => exact absurd hverdict (hpolicy _)
  | prune => rfl
  | descend =>
    have hforest : walkForest policy (.node k cs :: above) cs =
        ((walkForest policy (.node k cs :: above) cs).1, true) :=
      Prod.ext rfl hends
    rw [if_pos rfl, hforest]

theorem events_cons (above : List Tree) (t : Tree) (ts : List Tree) :
    (walkForest policy above (t :: ts)).1 = (walkTree policy above t).1 ++
      (walkForest policy above ts).1 := by
  have hends := walkTree_ends hpolicy above t
  rw [walkForest]
  split
  · next heq => rw [heq]
  · next heq =>
    rw [heq] at hends
    cases hends

theorem entered_walkForest (above : List Tree) (ts : List Tree) :
    (walkForest policy above ts).1.filterMap Event.entered? =
      ts.flatMap fun t => visited policy ⟨t, above⟩ := by
  induction ts with
  | nil =>
    rw [walkForest]
    rfl
  | cons t ts ih =>
    rw [events_cons hpolicy, filterMap_append, ih]
    rfl

omit hpolicy in
theorem visited_token (t : Token) (above : List Tree) : visited policy ⟨.token t, above⟩ = [] := by
  rw [visited, walk, walkTree]
  rfl

/-- **What a walk enters from a node**: the node, and what it enters below it. -/
theorem visited_node (k : NodeKind) (cs above : List Tree) :
    visited policy ⟨.node k cs, above⟩ =
      ⟨.node k cs, above⟩ ::
        if policy ⟨.node k cs, above⟩ = .descend then
          cs.flatMap fun c => visited policy ⟨c, .node k cs :: above⟩
        else [] := by
  rw [visited, walk, events_node hpolicy, ← entered_walkForest hpolicy]
  simp only [filterMap_cons, filterMap_append, Event.entered?, filterMap_nil, append_nil]
  split <;> rfl

variable {p q : Place}

/-- **Induction over what a walk enters**: the node itself, or a node that it enters from a child. -/
theorem visited_induction {motive : Place → Place → Prop} (self : ∀ p, motive p p)
    (child : ∀ p c q, p.tree.isNode = true → policy p = .descend → c ∈ p.tree.children →
      q ∈ visited policy (p.down c) → motive (p.down c) q → motive p q)
    (h : q ∈ p.visited policy) : motive p q := by
  obtain ⟨t, above⟩ := p
  induction t using Tree.induction generalizing above with
  | token t =>
    rw [visited_token] at h
    cases h
  | node k cs ih =>
    rw [visited_node hpolicy] at h
    rcases mem_cons.mp h with rfl | h
    · exact self _
    · split at h
      · next hdescend =>
        obtain ⟨c, hc, hq⟩ := mem_flatMap.mp h
        exact child _ c q rfl hdescend hc hq (ih c hc _ hq)
      · cases h

theorem contains_of_visited (h : q ∈ p.visited policy) : p.tree.Contains q.tree := by
  refine visited_induction hpolicy (motive := fun p q => p.tree.Contains q.tree) (fun p => .self) ?_ h
  intro p c q _ _ hc _ ih
  exact (Contains.child .self hc).trans ih

/-- A walk through a tree that is read elsewhere enters the same nodes. -/
theorem visited_moved {g : Token → Token} {above : List Tree}
    (hmoved : ∀ p, policy (p.moved g above) = policy p) (p : Place) :
    (p.moved g above).visited policy = (p.visited policy).map (moved g above) := by
  obtain ⟨t, up⟩ := p
  induction t using Tree.induction generalizing up with
  | token t =>
    rw [visited_token, moved, relabel_token, visited_token]
    rfl
  | node k cs ih =>
    have hpolicy' := hmoved ⟨.node k cs, up⟩
    rw [moved, relabel_node] at hpolicy'
    rw [moved, relabel_node, visited_node hpolicy, visited_node hpolicy, hpolicy', List.map_cons, moved,
      relabel_node]
    congr 1
    split
    · rw [flatMap_map, map_flatMap, flatMap_def, flatMap_def]
      congr 1
      refine map_congr_left ?_
      intro c hc
      rw [← ih c hc (.node k cs :: up), moved, List.map_cons, relabel_node, cons_append]
    · rfl

/-! ## Before, in and after a node -/

theorem tokens_sublist_of_visited {above cs : List Tree} {r : Place}
    (hr : r ∈ cs.flatMap fun c => visited policy ⟨c, above⟩) : r.tree.tokens.Sublist (forestTokens cs) := by
  obtain ⟨c, hc, hr⟩ := mem_flatMap.mp hr
  exact ((contains_of_visited hpolicy hr).tokens_isInfix.trans (tokens_isInfix_of_mem hc)).sublist

/-- A walk from a node goes through the children before a child, the child, and the children after it. -/
theorem visited_child {c : Tree} (hnode : p.tree.isNode = true) (hdescend : policy p = .descend)
    (hc : c ∈ p.tree.children) :
    ∃ before after, p.visited policy = p :: (before ++ (p.down c).visited policy ++ after) ∧
      (∀ r ∈ before, (r.tree.tokens ++ c.tokens).Sublist p.tree.tokens) ∧
      ∀ r ∈ after, (c.tokens ++ r.tree.tokens).Sublist p.tree.tokens := by
  obtain ⟨t, above⟩ := p
  cases t with
  | token t => cases hnode
  | node k cs =>
    obtain ⟨left, right, rfl⟩ := append_of_mem (show c ∈ cs from hc)
    have htokens : (node k (left ++ c :: right)).tokens =
        forestTokens left ++ c.tokens ++ forestTokens right := by
      rw [tokens_node, forestTokens_append, forestTokens_cons, append_assoc]
    have hwalk := visited_node hpolicy k (left ++ c :: right) above
    rw [if_pos hdescend, flatMap_append, flatMap_cons, ← append_assoc] at hwalk
    refine ⟨_, _, hwalk, ?_, ?_⟩
    · intro r hr
      rw [htokens]
      exact ((tokens_sublist_of_visited hpolicy hr).append (List.Sublist.refl _)).trans
        (sublist_append_left _ _)
    · intro r hr
      rw [htokens, append_assoc]
      exact ((List.Sublist.refl _).append (tokens_sublist_of_visited hpolicy hr)).trans
        (sublist_append_right _ _)

/-- **A walk that comes to a node** goes through nodes outside it, then through what a walk from the node
itself enters, then through nodes outside it again. -/
theorem visited_split (h : q ∈ p.visited policy) :
    ∃ before after, p.visited policy = before ++ q.visited policy ++ after ∧
      ∀ r ∈ before ++ after, r.tree.Encloses q.tree ∨ Apart p.tree r.tree q.tree := by
  refine visited_induction hpolicy (motive := fun p q => ∃ before after,
    p.visited policy = before ++ q.visited policy ++ after ∧
      ∀ r ∈ before ++ after, r.tree.Encloses q.tree ∨ Apart p.tree r.tree q.tree) ?_ ?_ h
  · intro p
    refine ⟨[], [], by rw [nil_append, append_nil], ?_⟩
    intro r hr
    cases hr
  · rintro p c q hnode hdescend hc hq ⟨before, after, hsplit, houtside⟩
    obtain ⟨left, right, hwalk, hleft, hright⟩ := visited_child hpolicy hnode hdescend hc
    have hcontains := contains_of_visited hpolicy hq
    have hin := hcontains.tokens_isInfix.sublist
    refine ⟨p :: (left ++ before), after ++ right, ?_, ?_⟩
    · rw [hwalk, hsplit]
      simp only [append_assoc, cons_append]
    intro r hr
    rw [cons_append, mem_cons, append_assoc, mem_append, ← append_assoc,
      mem_append] at hr
    rcases hr with rfl | hr | hr | hr
    · exact .inl ⟨c, hc, hcontains⟩
    · -- entered from a child before
      exact .inr (.inl (((List.Sublist.refl _).append hin).trans (hleft r hr)))
    · -- entered from the same child
      refine (houtside r hr).imp_right fun hapart => hapart.mono ?_
      exact (Contains.child .self hc).tokens_isInfix.sublist
    · -- entered from a child after
      exact .inr (.inr ((hin.append (List.Sublist.refl _)).trans (hright r hr)))

theorem visited_trans {r : Place} (hq : q ∈ p.visited policy) (hr : r ∈ q.visited policy) :
    r ∈ p.visited policy := by
  obtain ⟨before, after, hsplit, -⟩ := visited_split hpolicy hq
  rw [hsplit]
  exact mem_append_left _ (mem_append_right _ hr)

/-- What a walk enters below a node has the node above it. -/
theorem mem_above_of_visited (h : q ∈ p.visited policy) : q = p ∨ p.tree ∈ q.above := by
  refine visited_induction hpolicy
    (motive := fun p q => q = p ∨ (p.tree ∈ q.above ∧ ∀ t ∈ p.above, t ∈ q.above))
    (fun p => .inl rfl) ?_ h |>.imp_right And.left
  rintro p c q _ _ _ _ (rfl | ⟨-, hup⟩)
  · exact .inr ⟨mem_cons_self, fun t ht => mem_cons_of_mem _ ht⟩
  · exact .inr ⟨hup _ mem_cons_self, fun t ht => hup t (mem_cons_of_mem _ ht)⟩

/-- The nodes above a node that a walk enters were entered before it. -/
theorem visited_of_mem_above (h : q ∈ p.visited policy) {t : Tree} (ht : t ∈ q.above) :
    t ∈ p.above ∨ ∃ r ∈ p.visited policy, r.tree = t ∧ t.Encloses q.tree := by
  refine visited_induction hpolicy (motive := fun p q => t ∈ q.above →
    t ∈ p.above ∨ ∃ r ∈ p.visited policy, r.tree = t ∧ t.Encloses q.tree) (fun p ht => .inl ht) ?_ h ht
  rintro p c q hnode hdescend hc hq ih ht
  obtain ⟨left, right, hwalk, -, -⟩ := visited_child hpolicy hnode hdescend hc
  rw [hwalk]
  rcases ih ht with hup | ⟨r, hr, hrt, hencloses⟩
  · rcases mem_cons.mp hup with rfl | hup
    · exact .inr ⟨p, mem_cons_self, rfl, c, hc, contains_of_visited hpolicy hq⟩
    · exact .inl hup
  · refine .inr ⟨r, mem_cons_of_mem _ ?_, hrt, hencloses⟩
    exact mem_append_left _ (mem_append_right _ hr)

/-- A walk enters the node that it starts from. -/
theorem mem_visited_self (h : p.tree.isNode = true) : p ∈ p.visited policy := by
  obtain ⟨t, above⟩ := p
  cases t with
  | token t => cases h
  | node k cs =>
    rw [visited_node hpolicy]
    exact mem_cons_self

omit hpolicy in
/-- Every node that a tree contains is in its preorder. -/
theorem exists_mem_preorder {t c : Tree} (h : t.Contains c) (hc : c.isNode = true) :
    ∃ p ∈ (root t).preorder, p.tree = c := by
  have hgo : ∀ p : Place, (fun _ : Place => Verdict.descend) p ≠ .halt := fun _ => nofun
  induction h with
  | self => exact ⟨root t, mem_visited_self hgo hc, rfl⟩
  | @child u c _ hmem ih =>
    have hu : u.isNode = true := by
      cases u with
      | token t => cases hmem
      | node k cs => rfl
    obtain ⟨p, hp, rfl⟩ := ih hu
    obtain ⟨left, right, hwalk, -, -⟩ := visited_child hgo hu rfl hmem
    refine ⟨p.down c, visited_trans hgo hp ?_, rfl⟩
    rw [hwalk]
    have hdown : p.down c ∈ (p.down c).visited fun _ => .descend := mem_visited_self hgo hc
    exact mem_cons_of_mem _ (mem_append_left _ (mem_append_right _ hdown))

end Place

end SwiftOutline
