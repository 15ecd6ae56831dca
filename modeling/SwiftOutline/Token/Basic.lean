import SwiftOutline.Text.Quoted
import SwiftOutline.Text.Span

/-!
# Tokens

A token is a piece of source text that stands for itself, together with the gap of white space and
comments in front of it. A list of tokens therefore holds the source text that it was read from.
-/

namespace SwiftOutline

/-- The lexical class of a token. -/
inductive TokenKind where
  | identifier
  | keyword
  | integerLiteral
  | floatLiteral
  | stringLiteral
  | poundDirective
  | atSign
  | arrow
  | ellipsis
  | backslash
  | punct
deriving DecidableEq, Repr, Inhabited

/-- The name under which a lexical class is reported. -/
def TokenKind.name : TokenKind → String
  | .identifier => "Identifier"
  | .keyword => "Keyword"
  | .integerLiteral => "IntegerLiteral"
  | .floatLiteral => "FloatLiteral"
  | .stringLiteral => "StringLiteral"
  | .poundDirective => "PoundDirective"
  | .atSign => "At"
  | .arrow => "Arrow"
  | .ellipsis => "Ellipsis"
  | .backslash => "Backslash"
  | .punct => "Punct"

/-- The reserved words. Contextual words such as `actor` and `async` are not among them. -/
def keywords : List String :=
  ["associatedtype", "class", "deinit", "enum", "extension", "fileprivate", "func", "import",
   "init", "inout", "internal", "let", "open", "operator", "private", "precedencegroup",
   "protocol", "public", "rethrows", "static", "struct", "subscript", "typealias", "var",
   "break", "case", "catch", "continue", "default", "defer", "do", "else", "fallthrough", "for",
   "guard", "if", "in", "repeat", "return", "throw", "switch", "where", "while",
   "Any", "as", "false", "is", "nil", "self", "Self", "super", "throws", "true", "try"]

def isKeyword (word : String) : Bool := keywords.contains word

/-- A token with the gap in front of it. `start` is the byte offset of its text, and `newlineBefore`
says whether the gap breaks the line. -/
structure Token where
  kind : TokenKind
  lead : String
  text : String
  start : Nat
  newlineBefore : Bool
deriving DecidableEq, Repr, Inhabited

namespace Token

/-- The offset just past the token's text. -/
def stop (t : Token) : Nat := t.start + t.text.utf8ByteSize

def span (t : Token) : Span := ⟨t.start, t.stop⟩

/-- An identifier or a reserved word. -/
def isWord (t : Token) : Bool := t.kind == .identifier || t.kind == .keyword

/-- Nothing stands between the token and the one before it. -/
def isAdjacent (t : Token) : Bool := t.lead.isEmpty

/-- The source text from the first token of a run to the last. -/
def joined : List Token → String
  | [] => ""
  | t :: ts => t.text ++ String.join (ts.map fun u => u.lead ++ u.text)

/-- The span from the first token of a run to the last. -/
def spanOf (ts : List Token) : Span :=
  match ts.head?, ts.getLast? with
  | some first, some last => ⟨first.start, last.stop⟩
  | _, _ => Span.empty

end Token

/-- Why source text cannot be split into tokens, with the byte offset of the trouble. -/
inductive LexError where
  | unterminatedString (offset : Nat)
  | unterminatedComment (offset : Nat)
  | unexpectedCharacter (c : Char) (offset : Nat)
deriving DecidableEq, Repr, Inhabited

namespace LexError

def offset : LexError → Nat
  | unterminatedString n => n
  | unterminatedComment n => n
  | unexpectedCharacter _ n => n

def message : LexError → String
  | unterminatedString n => s!"unterminated string literal starting at byte {n}"
  | unterminatedComment n => s!"unterminated block comment starting at byte {n}"
  | unexpectedCharacter c n => "unexpected character " ++ Text.quotedChar c ++ s!" at byte {n}"

end LexError

end SwiftOutline
