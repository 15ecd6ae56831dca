import SwiftOutline.Tree.Basic

/-!
# Trees stored flat

A flat store keeps every node in a cell of its own: its kind, the cell above it, its children as cells
and tokens by number, and the first and last token below it. A `Builder` fills such a store call by
call. Nodes are opened, receive tokens and nodes, and are closed; a node just closed can be put into a
new one, which is how `T?` gets around `T`; an open node can change its kind.

Numbers are kept in the width that `narrow` leaves of them; in 32 bits it is `idOf`.
-/

namespace SwiftOutline

/-- A child of a stored node: a node by the number of its cell, or a token by its position. -/
inductive Slot where
  | node (id : Nat)
  | token (index : Nat)
deriving DecidableEq, Repr

/-- A stored node. The ends of its tokens are filled in when it is closed. -/
structure Cell where
  kind : NodeKind
  parent : Option Nat
  children : List Slot
  first : Option Nat
  last : Option Nat
deriving DecidableEq, Repr

/-- The positions from a cell's first token to its last. -/
def Cell.covered (c : Cell) : List Nat :=
  match c.first, c.last with
  | some a, some b => List.range' a (b + 1 - a)
  | _, _ => []

/-- What 32 bits keep of a number. -/
def idOf (n : Nat) : Nat := n % UInt32.size

/-- The cells made so far, by number, and the open nodes, the innermost first. -/
structure Builder (narrow : Nat → Nat) where
  cells : List Cell
  stack : List Nat
deriving DecidableEq, Repr

namespace Builder

variable {narrow : Nat → Nat}

def empty : Builder narrow := ⟨[], []⟩

/-- The number of the next node. -/
def nextId (b : Builder narrow) : Nat := narrow b.cells.length

/-- The cells with one more child in the innermost open node; without an open node nothing happens. -/
def withChild (b : Builder narrow) (slot : Slot) : List Cell :=
  match b.stack with
  | [] => b.cells
  | id :: _ => b.cells.modify id fun c => { c with children := c.children ++ [slot] }

/-- Opens a node as the next child of the innermost open one. -/
def startNode (kind : NodeKind) (b : Builder narrow) : Builder narrow where
  cells := b.withChild (.node b.nextId) ++ [⟨kind, b.stack.head?, [], none, none⟩]
  stack := b.nextId :: b.stack

/-- Puts a token into the innermost open node. -/
def pushToken (index : Nat) (b : Builder narrow) : Builder narrow :=
  { b with cells := b.withChild (.token (narrow index)) }

/-- The first token of a child. -/
def slotFirst (b : Builder narrow) : Slot → Option Nat
  | .token index => some index
  | .node id => b.cells[id]?.bind Cell.first

/-- The last token of a child. -/
def slotLast (b : Builder narrow) : Slot → Option Nat
  | .token index => some index
  | .node id => b.cells[id]?.bind Cell.last

/-- Closes the innermost open node. Its ends are those of the first and the last child that has any. -/
def finishNode (b : Builder narrow) : Builder narrow :=
  match b.stack with
  | [] => b
  | id :: stack =>
    { cells := b.cells.modify id fun c =>
        { c with
          first := c.children.findSome? b.slotFirst
          last := c.children.reverse.findSome? b.slotLast }
      stack := stack }

/-- Puts the last child of the innermost open node into a new open node; `none` if that child is no
node. -/
def wrapLast? (kind : NodeKind) (b : Builder narrow) : Option (Builder narrow) :=
  match b.stack with
  | [] => none
  | id :: stack =>
    match b.cells[id]?.bind fun c => c.children.getLast? with
    | some (.node child) =>
      some
        { cells :=
            ((b.cells.modify child fun c => { c with parent := some b.nextId }).modify id
              fun c => { c with children := c.children.dropLast ++ [.node b.nextId] }) ++
              [⟨kind, some id, [.node child], none, none⟩]
          stack := b.nextId :: id :: stack }
    | _ => none

/-- Changes the kind of a node. -/
def retag (id : Nat) (kind : NodeKind) (b : Builder narrow) : Builder narrow :=
  { b with cells := b.cells.modify id fun c => { c with kind := kind } }

end Builder

end SwiftOutline
