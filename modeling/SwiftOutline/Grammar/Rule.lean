import SwiftOutline.Tree.Basic

/-!
# Grammar rules

A rule reads syntax from the front of a list of tokens. The grammar is written with a few ways to put
rules together, each of which keeps every token it reads: the trees of a rule hold exactly the tokens
between its input and its rest.

What a rule makes of the tokens is left open by `Yield`. The same rules make trees, and the calls that
store the nodes of a tree one by one (`Calls`).
-/

namespace SwiftOutline

/-- Why a rule does not apply, with the token where it stopped; there is none at the end of the
input. -/
inductive Fault where
  | expected (what : String) (found : Option Token)
  | tooDeep (found : Option Token)
deriving DecidableEq, Repr

/-! ## Looking ahead -/

/-- A question about the tokens ahead. -/
abbrev Lookahead := List Token → Bool

/-- The text of the `n`th token ahead, empty past the end of the input. -/
def textAt (n : Nat) (ts : List Token) : String := (ts[n]?.map Token.text).getD ""

/-- The `n`th token ahead is a word. -/
def isWordAt (n : Nat) : Lookahead := fun ts => ts[n]?.any Token.isWord

/-- The next token has exactly this text. -/
def sees (text : String) : Lookahead := fun ts => ts.head?.any (·.text == text)

/-- The next token has this text and stands directly after the one before it. -/
def seesAdjacent (text : String) : Lookahead :=
  fun ts => ts.head?.any fun t => t.text == text && t.isAdjacent

/-- The next token is of this lexical class. -/
def seesKind (kind : TokenKind) : Lookahead := fun ts => ts.head?.any (·.kind == kind)

/-- The next token is a word. -/
def seesWord : Lookahead := isWordAt 0

/-- The next token begins a line. -/
def seesNewline : Lookahead := fun ts => ts.head?.any Token.newlineBefore

/-- There is no next token. -/
def seesEnd : Lookahead := List.isEmpty

/-! ## Rules -/

/-- What can be made of tokens. What was made of one part of the input is put in front of what is made
of the next by `++`. -/
class Yield (F : Type) where
  /-- Tokens as they stand. -/
  tokens : List Token → F
  /-- A node around what is read in it. -/
  node (kind : NodeKind) (within : F) : F
  /-- A node that was begun as one of kind `first`; after `before` it turns out to be of another kind. -/
  closing (first kind : NodeKind) (before after : F) : F
  /-- A node around a node that was already finished, and what follows that. -/
  wrap (kind : NodeKind) (inner after : F) : F

/-- Trees, where it does not show when the kind of a node was found. -/
@[default_instance low]
instance : Yield (List Tree) where
  tokens ts := ts.map .token
  node kind within := [.node kind within]
  closing _ kind before after := [.node kind (before ++ after)]
  wrap kind inner after := [.node kind (inner ++ after)]

/-- A rule reads syntax, trees unless another kind is given, and leaves the tokens that it has not
read. -/
def Rule (F : Type := List Tree) := List Token → Except Fault (F × List Token)

namespace Rule

/-- Goes on from what was read, if something was. -/
def andThen {F G : Type} (outcome : Except Fault (F × List Token))
    (next : F → List Token → Except Fault (G × List Token)) : Except Fault (G × List Token) :=
  match outcome with
  | .error e => .error e
  | .ok (f, rest) => next f rest

variable {F : Type} [Append F] [Yield F]

/-- Reads the tokens in front of the place where `split` cuts the input. -/
def run (split : List Token → Except Fault (List Token × List Token)) : Rule F := fun ts =>
  andThen (split ts) fun front rest => .ok (Yield.tokens front, rest)

/-- The rule that reads nothing. -/
def nothing : Rule F := run fun ts => .ok ([], ts)

/-- The rule that never applies, where `what` was expected. -/
def fail (what : String) : Rule F := run fun ts => .error (.expected what ts.head?)

/-- The rule that refuses to go deeper. -/
def tooDeep : Rule F := run fun ts => .error (.tooDeep ts.head?)

/-- Reads the next `n` tokens. -/
def bumps (n : Nat) : Rule F := run fun ts => .ok (ts.take n, ts.drop n)

/-- Reads the next token. -/
def bump : Rule F := bumps 1

/-- Reads one rule after another. -/
def seq (p q : Rule F) : Rule F := fun ts =>
  andThen (p ts) fun f rest => andThen (q rest) fun g rest' => .ok (f ++ g, rest')

instance : Append (Rule F) := ⟨seq⟩

/-- Reads `p` where the answer is yes and `q` where it is no. -/
def either (ask : Lookahead) (p q : Rule F) : Rule F := fun ts => if ask ts then p ts else q ts

/-- Reads the rule where the answer is yes, and otherwise nothing. -/
def optional (ask : Lookahead) (p : Rule F) : Rule F := either ask p nothing

/-- Reads the rule, which is `what`, only where the answer is yes. -/
def require (ask : Lookahead) (what : String) (p : Rule F) : Rule F := either ask p (fail what)

/-- Reads a token with this text. -/
def expect (text : String) : Rule F := require (sees text) ("'" ++ text ++ "'") bump

/-- Reads a word, which is `what`. -/
def expectWord (what : String) : Rule F := require seesWord what bump

/-- Reads a rule that must read a token, which is `what`. -/
def nonempty (what : String) (p : Rule F) : Rule F := fun ts =>
  andThen (p ts) fun f rest => if rest.length < ts.length then .ok (f, rest) else fail what ts

/-- Puts a node around what the rule reads. -/
def node (kind : NodeKind) (p : Rule F) : Rule F := fun ts =>
  andThen (p ts) fun f rest => .ok (Yield.node kind f, rest)

/-- Reads `p` in a node that is begun as one of kind `first`; the tokens after it decide which rule to
read next, and of which kind the node is. -/
def closing (first : NodeKind) (p : Rule F) (ask : List Token → NodeKind × Rule F) : Rule F := fun ts =>
  andThen (p ts) fun f rest =>
    andThen ((ask rest).2 rest) fun g rest' => .ok (Yield.closing first (ask rest).1 f g, rest')

/-- Reads `p` as long as the answer is yes. A round that reads no token is the last. -/
def many (ask : Lookahead) (p : Rule F) : Rule F := fun ts =>
  if ask ts then
    andThen (p ts) fun f rest =>
      if rest.length < ts.length then
        andThen (many ask p rest) fun g rest' => .ok (f ++ g, rest')
      else .ok (f, rest)
  else nothing ts
termination_by ts => ts.length

/-- Which node to put around what was read, and the rule for the rest of it; none if the tokens ahead ask
for none. -/
abbrev Form (F : Type := List Tree) := List Token → Option (NodeKind × Rule F)

/-- Puts nodes around `f`, one after another, as long as the tokens ahead ask for one: each takes in
all that was read before it and what its own rule reads. A round that reads no token is the last. -/
def wrappings (ask : Form F) (f : F) : Rule F := fun ts =>
  match ask ts with
  | none => .ok (f, ts)
  | some (kind, p) =>
    andThen (p ts) fun g rest =>
      if rest.length < ts.length then wrappings ask (Yield.wrap kind f g) rest
      else .ok (Yield.wrap kind f g, rest)
termination_by ts => ts.length

/-- Reads `p` and puts nodes around it as long as the tokens ahead ask for one. -/
def wrapping (p : Rule F) (ask : Form F) : Rule F := fun ts =>
  andThen (p ts) fun f rest => wrappings ask f rest

/-- Reads `p` one or more times, each with the token `link` after it if there is one, and a node
around the two. Another round follows after each link. -/
def chain (kind : NodeKind) (p : Rule F) (link : String) : Rule F := fun ts =>
  andThen (p ts) fun f rest =>
    if sees link rest ∧ (rest.drop 1).length < ts.length then
      andThen (chain kind p link (rest.drop 1)) fun g rest' =>
        .ok (Yield.node kind (f ++ Yield.tokens (rest.take 1)) ++ g, rest')
    else .ok (Yield.node kind f, rest)
termination_by ts => ts.length
decreasing_by simp_all

end Rule

end SwiftOutline
