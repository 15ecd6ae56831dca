import SwiftOutline.Grammar.Declaration
import SwiftOutline.Token.Lexer

/-!
# Parsing source text

The tree of a text is what a rule reads from its tokens, under a root.
-/

namespace SwiftOutline

/-- How many levels deep types and items may be nested. -/
def nestingLimit : Nat := 256

/-- Why a text has no tree, with the byte offset of the trouble. -/
inductive ParseError where
  | lexical (e : LexError)
  | unexpectedToken (expected found : String) (offset : Nat)
  | unexpectedEnd (expected : String) (offset : Nat)
  | nestingTooDeep (limit offset : Nat)
deriving DecidableEq, Repr, Inhabited

namespace ParseError

def offset : ParseError → Nat
  | lexical e => e.offset
  | unexpectedToken _ _ n => n
  | unexpectedEnd _ n => n
  | nestingTooDeep _ n => n

def message : ParseError → String
  | lexical e => "tokenizer error: " ++ e.message
  | unexpectedToken expected found n =>
    "expected " ++ expected ++ ", found " ++ Text.quoted found ++ s!" at byte {n}"
  | unexpectedEnd expected _ => "expected " ++ expected ++ ", found end of input"
  | nestingTooDeep limit n => s!"nesting deeper than {limit} levels at byte {n}"

/-- The error for a fault in a text of `size` bytes; a fault at the end of the input is placed
there. -/
def ofFault (size : Nat) : Fault → ParseError
  | .expected what (some t) => unexpectedToken what t.text t.start
  | .expected what none => unexpectedEnd what size
  | .tooDeep found => nestingTooDeep nestingLimit ((found.map Token.start).getD size)

end ParseError

namespace Rule

variable {F : Type} [Append F] [Yield F]

/-- Reads the items of a whole source file. -/
def sourceItems : Rule F := many (fun ts => !seesEnd ts) (item nestingLimit)

/-- Reads a single type, which an ellipsis may follow. -/
def soleType : Rule F :=
  type nestingLimit ++ optional (seesKind .ellipsis) bump ++ require seesEnd "end of type" nothing

end Rule

/-- The tree that a rule reads from a text, under a root of a given kind. -/
def parseWith (root : NodeKind) (rule : Rule) (source : String) : Except ParseError Tree :=
  match tokenize source with
  | .error e => .error (.lexical e)
  | .ok tokens =>
    match rule tokens with
    | .error fault => .error (.ofFault source.utf8ByteSize fault)
    | .ok (trees, _) => .ok (.node root trees)

/-- The tree of a source file. -/
def parseSource (source : String) : Except ParseError Tree :=
  parseWith .sourceFile Rule.sourceItems source

/-- The tree of a single type. -/
def parseType (source : String) : Except ParseError Tree :=
  parseWith .typeRoot Rule.soleType source

end SwiftOutline
