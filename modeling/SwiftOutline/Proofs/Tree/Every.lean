import SwiftOutline.Tree.Basic

/-!
# `Every` — properties of all nodes of a tree

`Tree.Every P` says of each node of a tree, by its kind and its children, that it has the property `P`.
Where `P` can be decided, it is decided node by node (`Tree.allNodes`).
-/

namespace SwiftOutline

/-- Every node of the tree, itself included, has the property. -/
inductive Tree.Every (P : NodeKind → List Tree → Prop) : Tree → Prop where
  | token (t : Token) : Every P (.token t)
  | node {kind : NodeKind} {cs : List Tree} (here : P kind cs) (below : ∀ c ∈ cs, Every P c) :
    Every P (.node kind cs)

namespace Tree.Every

variable {P : NodeKind → List Tree → Prop}

theorem here {kind : NodeKind} {cs : List Tree} (h : Every P (.node kind cs)) : P kind cs := by
  cases h with
  | node here _ => exact here

theorem child {t c : Tree} (h : t.Every P) (hc : c ∈ t.children) : c.Every P := by
  cases h with
  | token t => cases hc
  | node _ below => exact below c hc

theorem imp {Q : NodeKind → List Tree → Prop} {t : Tree} (h : t.Every P)
    (himp : ∀ ⦃kind cs⦄, P kind cs → Q kind cs) : t.Every Q := by
  induction h with
  | token t => exact .token t
  | node here _ ih => exact .node (himp here) ih

theorem and {Q : NodeKind → List Tree → Prop} {t : Tree} (h : t.Every P) (h' : t.Every Q) :
    t.Every fun kind cs => P kind cs ∧ Q kind cs := by
  induction h with
  | token t => exact .token t
  | node here _ ih => exact .node ⟨here, h'.here⟩ fun c hc => ih c hc (h'.child hc)

end Tree.Every

namespace Tree

mutual

/-- The answer is yes at every node of the tree. -/
def allNodes (ask : NodeKind → List Tree → Bool) : Tree → Bool
  | token _ => true
  | node kind cs => ask kind cs && forestAllNodes ask cs

/-- The answer is yes at every node of several trees. -/
def forestAllNodes (ask : NodeKind → List Tree → Bool) : List Tree → Bool
  | [] => true
  | t :: ts => t.allNodes ask && forestAllNodes ask ts

end

variable {ask : NodeKind → List Tree → Bool}

theorem forestAllNodes_eq_true (ts : List Tree) :
    forestAllNodes ask ts = true ↔ ∀ t ∈ ts, t.allNodes ask = true := by
  induction ts with
  | nil => simp [forestAllNodes]
  | cons t ts ih => simp [forestAllNodes, ih]

theorem every_of_allNodes {P : NodeKind → List Tree → Prop}
    (hask : ∀ kind cs, ask kind cs = true ↔ P kind cs) : (t : Tree) → t.allNodes ask = true → t.Every P
  | token t, _ => .token t
  | node kind cs, h => by
    rw [allNodes, Bool.and_eq_true, forestAllNodes_eq_true] at h
    exact .node ((hask kind cs).mp h.1) fun c hc => every_of_allNodes hask c (h.2 c hc)

theorem Every.allNodes {P : NodeKind → List Tree → Prop} (hask : ∀ kind cs, ask kind cs = true ↔ P kind cs)
    {t : Tree} (h : t.Every P) : t.allNodes ask = true := by
  induction h with
  | token t => rw [Tree.allNodes]
  | node here _ ih =>
    rw [Tree.allNodes, Bool.and_eq_true, forestAllNodes_eq_true]
    exact ⟨(hask _ _).mpr here, ih⟩

instance  (P : NodeKind → List Tree → Prop) [∀ kind cs, Decidable (P kind cs)] (t : Tree) :
    Decidable (t.Every P) :=
  decidable_of_iff (t.allNodes fun kind cs => decide (P kind cs))
    ⟨every_of_allNodes (fun _ _ => decide_eq_true_iff) t, Every.allNodes fun _ _ => decide_eq_true_iff⟩

end Tree

end SwiftOutline
