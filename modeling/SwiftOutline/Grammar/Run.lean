import SwiftOutline.Grammar.Rule

/-!
# Runs of tokens without structure

Bodies, expressions and requirements are kept as flat runs of tokens. What matters is only where a
run ends.
-/

namespace SwiftOutline

variable {F : Type} [Append F] [Yield F]

/-! ## Brackets -/

def isOpener (t : Token) : Bool :=
  t.kind == .punct && ["(", "[", "\x7b"].contains t.text

def isCloser (t : Token) : Bool :=
  t.kind == .punct && [")", "]", "\x7d"].contains t.text

/-- The bracket depth after a token. The three kinds of bracket count as one, and the depth does not
fall below zero. -/
def depthAfter (depth : Nat) (t : Token) : Nat :=
  if isOpener t then depth + 1 else if isCloser t then depth - 1 else depth

/-- The tokens up to the closing bracket that brings the depth down to zero, and the tokens after it;
`none` if there is no such bracket. -/
def takeGroup (depth : Nat) : List Token → Option (List Token × List Token)
  | [] => none
  | t :: ts =>
    if isCloser t && depthAfter depth t == 0 then some ([t], ts)
    else (takeGroup (depthAfter depth t) ts).map fun p => (t :: p.1, p.2)

theorem takeGroup_append {depth : Nat} {ts : List Token} {p : List Token × List Token}
    (h : takeGroup depth ts = some p) : p.1 ++ p.2 = ts := by
  fun_induction takeGroup depth ts generalizing p with
  | case1 => cases h
  | case2 => cases h; rfl
  | case3 depth t ts _ ih =>
    obtain ⟨a, ha, rfl⟩ := Option.map_eq_some_iff.mp h
    simp [ih ha]

theorem length_lt_of_takeGroup {depth : Nat} {ts : List Token} {p : List Token × List Token}
    (h : takeGroup depth ts = some p) : p.2.length < ts.length := by
  fun_induction takeGroup depth ts generalizing p with
  | case1 => cases h
  | case2 => cases h; simp
  | case3 depth t ts _ ih =>
    obtain ⟨a, ha, rfl⟩ := Option.map_eq_some_iff.mp h
    have := ih ha
    simp only [List.length_cons]
    omega

/-- The closing bracket that goes with an opening one, as it is named in an error. -/
def closerName (opener : String) : String :=
  if opener = "(" then "')'" else if opener = "[" then "']'" else "'\x7d'"

/-- Reads the bracket group that the next token opens. A group that is never closed is an error at
the end of the input. -/
def Rule.group : Rule F := run fun ts =>
  match takeGroup 0 ts with
  | some p => .ok p
  | none => .error (.expected (closerName (textAt 0 ts)) none)

/-! ## Statements and expressions -/

/-- Tokens that go on with the expression of the line before when they begin a line. -/
def continuationTokens : List String :=
  [".", "?", "+", "*", "/", "%", "&", "|", "^", "=", "<", ">"]

/-- The next token ends a clause of conditional compilation. -/
def seesClauseEnd : Lookahead := fun ts => sees "#elseif" ts || sees "#else" ts || sees "#endif" ts

/-- The tokens ahead open the observers of a stored property. -/
def seesObservers : Lookahead :=
  fun ts => sees "\x7b" ts && ["willSet", "didSet"].contains (textAt 1 ts)

/-- A run ends before the next token, outside all brackets. `begun` says whether the run holds a token
already, and `comma` whether it ends at a comma. -/
def runEnds (comma begun : Bool) : Lookahead
  | [] => true
  | t :: ts =>
    let isPunct := t.kind == .punct
    (begun && t.newlineBefore && !(isPunct && continuationTokens.contains t.text)) ||
      seesClauseEnd (t :: ts) ||
      (isPunct && (t.text == "\x7d" || t.text == ";" ||
        (begun && (t.text == ")" || t.text == "]")) ||
        (comma && t.text == ",") ||
        (begun && seesObservers (t :: ts))))

/-- A run of tokens and the tokens after it. Inside brackets the run goes on to the closing one, or to
the end of the input. -/
def takeRun (comma begun : Bool) (depth : Nat) : List Token → List Token × List Token
  | [] => ([], [])
  | t :: ts =>
    if depth == 0 && runEnds comma begun (t :: ts) then ([], t :: ts)
    else
      let p := takeRun comma true (depthAfter depth t) ts
      (t :: p.1, p.2)

/-- Reads the tokens of a statement. -/
def Rule.statementRun : Rule F := run fun ts => .ok (takeRun false false 0 ts)

/-- Reads the tokens of an expression, which ends before a comma. -/
def Rule.exprRun : Rule F := run fun ts => .ok (takeRun true false 0 ts)

/-- Reads an expression. -/
def Rule.expr : Rule F := node .expr (nonempty "expression" exprRun)

/-! ## Requirements -/

/-- The requirements after `where` end before the next token, outside brackets. A line break ends them
unless `last`, the text of the token before, shows that a requirement is unfinished. -/
def requirementsEnd (last : String) (begun : Bool) : Lookahead := fun ts =>
  sees "\x7b" ts || sees "\x7d" ts || sees ";" ts || seesClauseEnd ts ||
    (begun && seesNewline ts && !([",", ":", "&", "="].contains last))

/-- The requirements after `where` and the tokens after them. -/
def takeRequirements (last : String) (begun : Bool) (depth : Nat) :
    List Token → List Token × List Token
  | [] => ([], [])
  | t :: ts =>
    if depth == 0 && requirementsEnd last begun (t :: ts) then ([], t :: ts)
    else
      let depth :=
        if t.text == "(" || t.text == "[" then depth + 1
        else if t.text == ")" || t.text == "]" then depth - 1
        else depth
      let p := takeRequirements t.text true depth ts
      (t :: p.1, p.2)

/-- Reads the requirements after the word `where`. -/
def Rule.requirements : Rule F := run fun ts => .ok (takeRequirements "where" false 0 ts)

end SwiftOutline
