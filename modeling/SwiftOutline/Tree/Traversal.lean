import SwiftOutline.Tree.Place

/-!
# Walking a tree

A walk goes through the nodes of a tree in source order, parents first. A policy says at each node
whether to go on into its children.
-/

namespace SwiftOutline

/-- What to do with a node: go into its children, pass over them, or end the walk. -/
inductive Verdict where
  | descend
  | prune
  | halt
deriving DecidableEq, Repr

/-- A step of a walk. -/
inductive Event where
  | enter (p : Place)
  | leave (p : Place)

/-- The node that a walk enters in a step. -/
def Event.entered? : Event → Option Place
  | enter p => some p
  | leave _ => none

namespace Place

mutual

/-- The events of a walk through `t`, which lies below `above`, and whether it came to its end. -/
def walkTree (policy : Place → Verdict) (above : List Tree) : Tree → List Event × Bool
  | .token _ => ([], true)
  | .node k cs =>
    let here : Place := ⟨.node k cs, above⟩
    match policy here with
    | .halt => ([.enter here], false)
    | .prune => ([.enter here, .leave here], true)
    | .descend =>
      match walkForest policy (.node k cs :: above) cs with
      | (events, true) => (.enter here :: (events ++ [.leave here]), true)
      | (events, false) => (.enter here :: events, false)

/-- The events of a walk through several trees; a walk that ends early reaches none of the trees
after that. -/
def walkForest (policy : Place → Verdict) (above : List Tree) : List Tree → List Event × Bool
  | [] => ([], true)
  | t :: ts =>
    match walkTree policy above t with
    | (events, true) =>
      let others := walkForest policy above ts
      (events ++ others.1, others.2)
    | (events, false) => (events, false)

end

/-- The events of a walk from a node, and whether it came to its end. A node is left after its
children; once the walk has been ended no node is left any more. -/
def walk (policy : Place → Verdict) (p : Place) : List Event × Bool :=
  walkTree policy p.above p.tree

/-- The nodes that a walk enters, in order. -/
def visited (policy : Place → Verdict) (p : Place) : List Place :=
  (p.walk policy).1.filterMap Event.entered?

/-- All nodes from a place down, parents first. -/
def preorder (p : Place) : List Place := p.visited fun _ => .descend

end Place

end SwiftOutline
