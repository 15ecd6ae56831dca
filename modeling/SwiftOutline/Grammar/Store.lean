import SwiftOutline.Grammar.Parse
import SwiftOutline.Tree.Builder

/-!
# Storing the syntax of a text

The rules that make the tree of a text also make the calls that store its nodes: a node is opened before
what is read in it and closed behind that, a node that turns out to be of another kind is retagged, and
a postfix form is put around the node that was closed last.
-/

namespace SwiftOutline

variable {narrow : Nat → Nat}

/-- Calls of the builder one after another. They go on from the builder and the position of the next
token, and there is no result if a wrapping does not apply. -/
def Calls (narrow : Nat → Nat) := Builder narrow → Nat → Option (Builder narrow × Nat)

namespace Calls

/-- Pushes tokens from a position on. -/
def push (b : Builder narrow) (index : Nat) : List Token → Builder narrow × Nat
  | [] => (b, index)
  | _ :: ts => push (b.pushToken index) (index + 1) ts

/-- Closes the innermost open node. -/
def close (p : Builder narrow × Nat) : Builder narrow × Nat := (p.1.finishNode, p.2)

instance : Append (Calls narrow) where
  append f g b index := (f b index).bind fun p => g p.1 p.2

instance : Yield (Calls narrow) where
  tokens ts b index := some (push b index ts)
  node kind within b index := (within (b.startNode kind) index).map close
  closing first kind before after b index :=
    ((before (b.startNode first) index).bind fun p =>
      after (if kind = first then p.1 else p.1.retag b.nextId kind) p.2).map close
  wrap kind inner after b index :=
    (inner b index).bind fun p => (p.1.wrapLast? kind).bind fun b' => (after b' p.2).map close

end Calls

/-- The cells that a rule fills from a text, under a root of a given kind; `none` if a wrapping does not
apply. -/
def storeWith (root : NodeKind) (rule : Rule (Calls narrow)) (source : String) :
    Except ParseError (Option (List Cell)) :=
  match tokenize source with
  | .error e => .error (.lexical e)
  | .ok tokens =>
    match rule tokens with
    | .error fault => .error (.ofFault source.utf8ByteSize fault)
    | .ok (calls, _) => .ok ((Yield.node root calls Builder.empty 0).map fun p => p.1.cells)

/-- The cells of a source file. -/
def storeSource (narrow : Nat → Nat) (source : String) : Except ParseError (Option (List Cell)) :=
  storeWith .sourceFile (Rule.sourceItems (F := Calls narrow)) source

/-- The cells of a single type. -/
def storeType (narrow : Nat → Nat) (source : String) : Except ParseError (Option (List Cell)) :=
  storeWith .typeRoot (Rule.soleType (F := Calls narrow)) source

end SwiftOutline
