import SwiftOutline.Tree.Place

/-!
# `Relabel` — trees whose tokens are changed in place

A relabelling changes every token of a tree and leaves its shape alone. Two readings of one text at
different offsets differ by a relabelling, so what is said of a tree has to be said of its
relabellings as well. The lemmas here push `relabel` through the look-ups of `Tree`.
-/

namespace SwiftOutline

open List
namespace Tree

/-- A property of trees that each node has if its children have it. -/
theorem induction {motive : Tree → Prop} (token : ∀ t, motive (.token t))
    (node : ∀ k cs, (∀ c ∈ cs, motive c) → motive (.node k cs)) : (t : Tree) → motive t
  | .token t => token t
  | .node k cs => node k cs fun c _ => induction token node c

mutual

/-- The tree with every token changed by `g`. -/
def relabel (g : Token → Token) : Tree → Tree
  | token t => token (g t)
  | node k cs => node k (relabelForest g cs)

/-- The trees with every token changed by `g`. -/
def relabelForest (g : Token → Token) : List Tree → List Tree
  | [] => []
  | t :: ts => t.relabel g :: relabelForest g ts

end

theorem relabelForest_eq_map (g : Token → Token) (ts : List Tree) :
    relabelForest g ts = ts.map (relabel g) := by
  induction ts with
  | nil => rw [relabelForest, map_nil]
  | cons t ts ih => rw [relabelForest, List.map_cons, ih]

@[simp] theorem relabel_token (g : Token → Token) (t : Token) :
    (token t).relabel g = token (g t) := by
  rw [relabel]

@[simp] theorem relabel_node (g : Token → Token) (k : NodeKind) (cs : List Tree) :
    (node k cs).relabel g = node k (cs.map (relabel g)) := by
  rw [relabel, relabelForest_eq_map]

/-! ## Tokens of forests -/

@[simp] theorem tokens_token (t : Token) : (token t).tokens = [t] := by rw [tokens]

@[simp] theorem tokens_node (k : NodeKind) (cs : List Tree) :
    (node k cs).tokens = forestTokens cs := by
  rw [tokens]

@[simp] theorem forestTokens_nil : forestTokens [] = [] := by rw [forestTokens]

@[simp] theorem forestTokens_cons (t : Tree) (ts : List Tree) :
    forestTokens (t :: ts) = t.tokens ++ forestTokens ts := by
  rw [forestTokens]

theorem forestTokens_singleton (t : Tree) : forestTokens [t] = t.tokens := by
  rw [forestTokens_cons, forestTokens_nil, append_nil]

@[simp] theorem forestTokens_append (as bs : List Tree) :
    forestTokens (as ++ bs) = forestTokens as ++ forestTokens bs := by
  simp only [forestTokens_eq_flatMap, flatMap_append]

@[simp] theorem forestTokens_map_token (ts : List Token) :
    forestTokens (ts.map token) = ts := by
  induction ts with
  | nil => rw [map_nil, forestTokens_nil]
  | cons t ts ih => rw [List.map_cons, forestTokens_cons, ih, tokens_token, singleton_append]

mutual

theorem tokens_relabel (g : Token → Token) : (t : Tree) → (t.relabel g).tokens = t.tokens.map g
  | token t => by rw [relabel_token, tokens_token, tokens_token, map_singleton]
  | node k cs => by rw [relabel_node, tokens_node, tokens_node, forestTokens_relabel g cs]

theorem forestTokens_relabel (g : Token → Token) :
    (ts : List Tree) → forestTokens (ts.map (relabel g)) = (forestTokens ts).map g
  | [] => by rw [map_nil, forestTokens_nil, map_nil]
  | t :: ts => by
    rw [List.map_cons, forestTokens_cons, forestTokens_cons, map_append, tokens_relabel g t,
      forestTokens_relabel g ts]

end

mutual

/-- Two changes that agree on the tokens of a tree relabel it alike. -/
theorem relabel_congr {g h : Token → Token} :
    (t : Tree) → (∀ u ∈ t.tokens, g u = h u) → t.relabel g = t.relabel h
  | token t, heq => by
    rw [relabel_token, relabel_token, heq t (by rw [tokens_token]; exact mem_singleton_self t)]
  | node k cs, heq => by
    rw [relabel_node, relabel_node, relabelForest_congr cs (by rw [tokens_node] at heq; exact heq)]

theorem relabelForest_congr {g h : Token → Token} :
    (ts : List Tree) → (∀ u ∈ forestTokens ts, g u = h u) →
      ts.map (relabel g) = ts.map (relabel h)
  | [], _ => rfl
  | t :: ts, heq => by
    rw [forestTokens_cons] at heq
    rw [List.map_cons, List.map_cons,
      relabel_congr t fun u hu => heq u (mem_append_left _ hu),
      relabelForest_congr ts fun u hu => heq u (mem_append_right _ hu)]

end

mutual

theorem relabel_id : (t : Tree) → t.relabel id = t
  | token t => by rw [relabel_token, id]
  | node k cs => by rw [relabel_node, relabelForest_id cs]

theorem relabelForest_id : (ts : List Tree) → ts.map (relabel id) = ts
  | [] => rfl
  | t :: ts => by rw [List.map_cons, relabel_id t, relabelForest_id ts]

end

mutual

theorem relabel_relabel (g h : Token → Token) :
    (t : Tree) → (t.relabel g).relabel h = t.relabel fun u => h (g u)
  | token t => by rw [relabel_token, relabel_token, relabel_token]
  | node k cs => by rw [relabel_node, relabel_node, relabel_node, relabelForest_relabel g h cs]

theorem relabelForest_relabel (g h : Token → Token) :
    (ts : List Tree) → (ts.map (relabel g)).map (relabel h) = ts.map (relabel fun u => h (g u))
  | [] => rfl
  | t :: ts => by
    rw [List.map_cons, List.map_cons, List.map_cons, relabel_relabel g h t, relabelForest_relabel g h ts]

end

end Tree
end SwiftOutline
