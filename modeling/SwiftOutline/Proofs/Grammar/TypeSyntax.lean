import SwiftOutline.Grammar.Parse

/-!
# `TypeSyntax` — types as they are written

The types of the grammar as data, loosest first: compositions of operands, an operand with what stands in
front of it, and names, parentheses and brackets with suffixes. A function type takes all that follows
its arrow, so it has no suffix and is the last operand at most; the data has no place for one elsewhere.
-/

namespace SwiftOutline

/-! ## Words and marks -/

/-- The text is an identifier or a reserved word, without any quoting. -/
def isPlainWord (text : String) : Bool :=
  match text.toList with
  | [] => false
  | c :: cs => isIdentifierStart c && cs.all isIdentifierPart

/-- An identifier or a reserved word. -/
structure Word where
  text : String
  plain : isPlainWord text = true

/-- A word that is a specifier. -/
structure Specifier where
  word : Word
  listed : typeSpecifiers.contains word.text = true

/-- A word that may follow a dot in the name of a member type. -/
structure MemberName where
  word : Word
  unlisted : ["Type", "Protocol"].contains word.text = false

/-- An effect of a function. -/
inductive Effect where
  | async
  | reasync
  | throws
  | rethrows

/-- The marks that types are written with. -/
inductive Mark where
  | atSign
  | parenOpen
  | parenClose
  | bracketOpen
  | bracketClose
  | angleOpen
  | angleClose
  | comma
  | colon
  | question
  | exclamation
  | dot
  | ampersand
  | tilde
  | arrow
  | ellipsis
deriving DecidableEq

def Effect.word : Effect → Word
  | async => ⟨"async", by decide⟩
  | reasync => ⟨"reasync", by decide⟩
  | throws => ⟨"throws", by decide⟩
  | rethrows => ⟨"rethrows", by decide⟩

namespace Word

/-- The word before a type that is only known by what it conforms to. -/
def someOrAny (isAny : Bool) : Word := if isAny then ⟨"any", by decide⟩ else ⟨"some", by decide⟩

/-- The word that asks for a metatype. -/
def metatype (isProtocol : Bool) : Word := if isProtocol then ⟨"Protocol", by decide⟩ else ⟨"Type", by decide⟩

def kind (w : Word) : TokenKind := if isKeyword w.text then .keyword else .identifier

/-- The word with a space in front of it. -/
def token (w : Word) : Token := ⟨w.kind, " ", w.text, 0, false⟩

/-- The word with nothing in front of it. -/
def attached (w : Word) : Token := ⟨w.kind, "", w.text, 0, false⟩

end Word

namespace Mark

def kind : Mark → TokenKind
  | atSign => .atSign
  | arrow => .arrow
  | ellipsis => .ellipsis
  | _ => .punct

def text : Mark → String
  | atSign => "@"
  | parenOpen => "("
  | parenClose => ")"
  | bracketOpen => "["
  | bracketClose => "]"
  | angleOpen => "<"
  | angleClose => ">"
  | comma => ","
  | colon => ":"
  | question => "?"
  | exclamation => "!"
  | dot => "."
  | ampersand => "&"
  | tilde => "~"
  | arrow => "->"
  | ellipsis => "..."

/-- The mark with a space in front of it. -/
def token (m : Mark) : Token := ⟨m.kind, " ", m.text, 0, false⟩

/-- The mark as a leaf of a tree. -/
def leaf (m : Mark) : Tree := .token m.token

end Mark

/-- The word as a leaf of a tree. -/
def Word.leaf (w : Word) : Tree := .token w.token

/-- What stands between two spaces. -/
inductive Chunk where
  | word (w : Word)
  | mark (m : Mark)
  | atName (name : Word)

def Chunk.tokens : Chunk → List Token
  | word w => [w.token]
  | mark m => [m.token]
  | atName name => [Mark.atSign.token, name.attached]

/-- The tokens of chunks with single spaces between them. -/
def tokensOf (ps : List Chunk) : List Token := ps.flatMap Chunk.tokens

/-! ## Types -/

/-- What stands in front of an operand: nothing, specifiers and attributes, `some` or `any`, or a tilde. -/
inductive Front where
  | bare
  | marked (specifiers : List Specifier) (attributes : List Word)
    (marks : (specifiers.isEmpty && attributes.isEmpty) = false)
  | someOrAny (isAny : Bool)
  | suppressed

def Front.isSomeOrAny : Front → Bool
  | someOrAny _ => true
  | _ => false

/-- The labels of an element. -/
inductive ElementLabels where
  | none
  | one (name : Word)
  | two (name secondName : Word)

mutual

/-- A type: an operand, or several with `&` between them. -/
inductive TypeExpr where
  | operand (o : Operand)
  | both (first : Closed) (others : TypeExpr)

/-- An operand that may end in a function type. -/
inductive Operand where
  | closed (c : Closed)
  | function (front : Front) (inputs : List Element) (effects : List Effect) (result : TypeExpr)

/-- An operand that does not end in a function type. Neither `some` nor `any` stands before brackets. -/
inductive Closed where
  | plain (front : Front) (head : Head) (suffixes : List Suffix)
  | bracketed (front : Front) (allowed : front.isSomeOrAny = false) (brackets : Brackets)
    (suffixes : List Suffix)

/-- A name, with generic arguments if there are any, or parentheses. -/
inductive Head where
  | name (w : Word) (arguments : List TypeExpr)
  | tuple (elements : List Element)

/-- An array or a dictionary. -/
inductive Brackets where
  | array (element : TypeExpr)
  | dictionary (key value : TypeExpr)

/-- What may follow a type. -/
inductive Suffix where
  | optional
  | unwrapped
  | metatype (isProtocol : Bool)
  | member (name : MemberName) (arguments : List TypeExpr)

/-- An element between parentheses. -/
inductive Element where
  | mk (labels : ElementLabels) (type : TypeExpr) (variadic : Bool)

end

/-! ## Writing -/

/-- The comma between an entry and the others. -/
def separator {α : Type} : List α → List Mark
  | [] => []
  | _ :: _ => [.comma]

def Front.chunks : Front → List Chunk
  | bare => []
  | marked specifiers attributes _ => specifiers.map (.word ·.word) ++ attributes.map .atName
  | someOrAny isAny => [.word (.someOrAny isAny)]
  | suppressed => [.mark .tilde]

def ElementLabels.chunks : ElementLabels → List Chunk
  | none => []
  | one name => [.word name, .mark .colon]
  | two name secondName => [.word name, .word secondName, .mark .colon]

/-- The ellipsis of a variadic element. -/
def ellipsisOf (variadic : Bool) : List Mark := if variadic then [.ellipsis] else []

/-- Generic arguments in their clause; none have no clause. -/
def clauseOf {α : Type} (arguments : List α) (inside : List Chunk) : List Chunk :=
  match arguments with
  | [] => []
  | _ :: _ => .mark .angleOpen :: (inside ++ [.mark .angleClose])

mutual

def TypeExpr.chunks : TypeExpr → List Chunk
  | .operand o => o.chunks
  | .both first others => first.chunks ++ .mark .ampersand :: others.chunks

def Operand.chunks : Operand → List Chunk
  | .closed c => c.chunks
  | .function front inputs effects result =>
    front.chunks ++ .mark .parenOpen :: (chunksOfElements inputs ++ .mark .parenClose ::
      (effects.map (.word ·.word) ++ .mark .arrow :: result.chunks))

def Closed.chunks : Closed → List Chunk
  | .plain front head suffixes => front.chunks ++ (head.chunks ++ chunksOfSuffixes suffixes)
  | .bracketed front _ brackets suffixes => front.chunks ++ (brackets.chunks ++ chunksOfSuffixes suffixes)

def Head.chunks : Head → List Chunk
  | .name w arguments => .word w :: clauseOf arguments (chunksOfTypes arguments)
  | .tuple elements => .mark .parenOpen :: (chunksOfElements elements ++ [.mark .parenClose])

def Brackets.chunks : Brackets → List Chunk
  | .array element => .mark .bracketOpen :: (element.chunks ++ [.mark .bracketClose])
  | .dictionary key value =>
    .mark .bracketOpen :: (key.chunks ++ .mark .colon :: (value.chunks ++ [.mark .bracketClose]))

def Suffix.chunks : Suffix → List Chunk
  | .optional => [.mark .question]
  | .unwrapped => [.mark .exclamation]
  | .metatype isProtocol => [.mark .dot, .word (.metatype isProtocol)]
  | .member name arguments =>
    .mark .dot :: .word name.word :: clauseOf arguments (chunksOfTypes arguments)

def Element.chunks : Element → List Chunk
  | .mk labels type variadic => labels.chunks ++ (type.chunks ++ (ellipsisOf variadic).map .mark)

def chunksOfTypes : List TypeExpr → List Chunk
  | [] => []
  | t :: ts => t.chunks ++ ((separator ts).map .mark ++ chunksOfTypes ts)

def chunksOfElements : List Element → List Chunk
  | [] => []
  | e :: es => e.chunks ++ ((separator es).map .mark ++ chunksOfElements es)

def chunksOfSuffixes : List Suffix → List Chunk
  | [] => []
  | s :: ss => s.chunks ++ chunksOfSuffixes ss

end

/-- The text of a type: its tokens with single spaces between them, but none after `@`. -/
def TypeExpr.text (t : TypeExpr) : String := Token.joined (tokensOf t.chunks)

/-! ## Trees -/

/-- The tree of an attribute without arguments. -/
def attributeTree (name : Word) : Tree := .node .declAttribute [Mark.atSign.leaf, .token name.attached]

/-- Attributes in their list; none have no list. -/
def attributeTrees : List Word → List Tree
  | [] => []
  | name :: names => [.node .attributeList ((name :: names).map attributeTree)]

/-- Effects in their node; none have no node. -/
def effectTrees : List Effect → List Tree
  | [] => []
  | e :: es => [.node .effectSpecifiers ((e :: es).map (·.word.leaf))]

/-- The tree of an operand with what stands in front of it. -/
def Front.tree : Front → Tree → Tree
  | bare, u => u
  | marked specifiers attributes _, u =>
    .node .attributedType (specifiers.map (·.word.leaf) ++ (attributeTrees attributes ++ [u]))
  | someOrAny isAny, u => .node .someOrAnyType [(Word.someOrAny isAny).leaf, u]
  | suppressed, u => .node .suppressedType [Mark.tilde.leaf, u]

def ElementLabels.leaves : ElementLabels → List Tree
  | none => []
  | one name => [name.leaf, Mark.colon.leaf]
  | two name secondName => [name.leaf, secondName.leaf, Mark.colon.leaf]

/-- The clause of generic arguments. -/
def clauseTrees {α : Type} (arguments : List α) (inside : List Tree) : List Tree :=
  match arguments with
  | [] => []
  | _ :: _ => [.node .genericArgumentClause (Mark.angleOpen.leaf :: (inside ++ [Mark.angleClose.leaf]))]

mutual

/-- The tree of a type. The operands of a composition are children of one node. -/
def TypeExpr.tree : TypeExpr → Tree
  | .operand o => o.tree
  | .both first others => .node .compositionType (first.tree :: Mark.ampersand.leaf :: others.operandTrees)

/-- The trees of the operands with the marks between them. -/
def TypeExpr.operandTrees : TypeExpr → List Tree
  | .operand o => [o.tree]
  | .both first others => first.tree :: Mark.ampersand.leaf :: others.operandTrees

def Operand.tree : Operand → Tree
  | .closed c => c.tree
  | .function front inputs effects result =>
    front.tree (.node .functionType
      ([Mark.parenOpen.leaf, .node .tupleTypeElementList (treesOfElements inputs), Mark.parenClose.leaf] ++
        (effectTrees effects ++ [Mark.arrow.leaf, result.tree])))

def Closed.tree : Closed → Tree
  | .plain front head suffixes => front.tree (treeOfSuffixes head.tree suffixes)
  | .bracketed front _ brackets suffixes => front.tree (treeOfSuffixes brackets.tree suffixes)

def Head.tree : Head → Tree
  | .name w arguments => .node .identifierType (w.leaf :: clauseTrees arguments (treesOfTypes arguments))
  | .tuple elements => .node .tupleType [Mark.parenOpen.leaf,
      .node .tupleTypeElementList (treesOfElements elements), Mark.parenClose.leaf]

def Brackets.tree : Brackets → Tree
  | .array element => .node .arrayType [Mark.bracketOpen.leaf, element.tree, Mark.bracketClose.leaf]
  | .dictionary key value => .node .dictionaryType
      [Mark.bracketOpen.leaf, key.tree, Mark.colon.leaf, value.tree, Mark.bracketClose.leaf]

/-- The tree of a type with a suffix. -/
def Suffix.tree (u : Tree) : Suffix → Tree
  | .optional => .node .optionalType [u, Mark.question.leaf]
  | .unwrapped => .node .implicitlyUnwrappedOptionalType [u, Mark.exclamation.leaf]
  | .metatype isProtocol => .node .metatypeType [u, Mark.dot.leaf, (Word.metatype isProtocol).leaf]
  | .member name arguments => .node .memberType (u :: Mark.dot.leaf :: name.word.leaf ::
      clauseTrees arguments (treesOfTypes arguments))

/-- The tree of an element with the mark that separates it from the next. -/
def Element.tree (after : List Mark) : Element → Tree
  | .mk labels type variadic => .node .tupleTypeElement
      (labels.leaves ++ (type.tree :: ((ellipsisOf variadic).map Mark.leaf ++ after.map Mark.leaf)))

def treesOfTypes : List TypeExpr → List Tree
  | [] => []
  | t :: ts => .node .genericArgument (t.tree :: (separator ts).map Mark.leaf) :: treesOfTypes ts

def treesOfElements : List Element → List Tree
  | [] => []
  | e :: es => e.tree (separator es) :: treesOfElements es

def treeOfSuffixes (u : Tree) : List Suffix → Tree
  | [] => u
  | s :: ss => treeOfSuffixes (s.tree u) ss

end

/-! ## Nesting -/

mutual

/-- How many levels of types the type has, itself included. -/
def TypeExpr.nesting : TypeExpr → Nat
  | .operand o => o.nesting + 1
  | .both first others => max (first.nesting + 1) others.nesting

/-- How many levels of types there are inside. -/
def Operand.nesting : Operand → Nat
  | .closed c => c.nesting
  | .function _ inputs _ result => max (nestingOfElements inputs) result.nesting

def Closed.nesting : Closed → Nat
  | .plain _ head suffixes => max head.nesting (nestingOfSuffixes suffixes)
  | .bracketed _ _ brackets suffixes => max brackets.nesting (nestingOfSuffixes suffixes)

def Head.nesting : Head → Nat
  | .name _ arguments => nestingOfTypes arguments
  | .tuple elements => nestingOfElements elements

def Brackets.nesting : Brackets → Nat
  | .array element => element.nesting
  | .dictionary key value => max key.nesting value.nesting

def Suffix.nesting : Suffix → Nat
  | .member _ arguments => nestingOfTypes arguments
  | _ => 0

def Element.nesting : Element → Nat
  | .mk _ type _ => type.nesting

def nestingOfTypes : List TypeExpr → Nat
  | [] => 0
  | t :: ts => max t.nesting (nestingOfTypes ts)

def nestingOfElements : List Element → Nat
  | [] => 0
  | e :: es => max e.nesting (nestingOfElements es)

def nestingOfSuffixes : List Suffix → Nat
  | [] => 0
  | s :: ss => max s.nesting (nestingOfSuffixes ss)

end

theorem TypeExpr.nesting_pos (t : TypeExpr) : 0 < t.nesting := by
  cases t with
  | operand o => exact Nat.succ_pos _
  | both first others => exact Nat.lt_of_lt_of_le (Nat.succ_pos _) (Nat.le_max_left _ _)

theorem nesting_le_of_mem_types {ts : List TypeExpr} {n : Nat} (h : nestingOfTypes ts ≤ n) :
    ∀ t ∈ ts, t.nesting ≤ n := by
  induction ts with
  | nil => exact List.forall_mem_nil _
  | cons t ts ih =>
    rw [nestingOfTypes, Nat.max_le] at h
    exact List.forall_mem_cons.mpr ⟨h.1, ih h.2⟩

theorem nesting_le_of_mem_elements {es : List Element} {n : Nat} (h : nestingOfElements es ≤ n) :
    ∀ e ∈ es, e.nesting ≤ n := by
  induction es with
  | nil => exact List.forall_mem_nil _
  | cons e es ih =>
    rw [nestingOfElements, Nat.max_le] at h
    exact List.forall_mem_cons.mpr ⟨h.1, ih h.2⟩

/-! ## Lists -/

/-- Entries with commas between them. -/
def listed {α : Type} (write : α → List Chunk) : List α → List Chunk
  | [] => []
  | x :: xs => write x ++ ((separator xs).map .mark ++ listed write xs)

/-- The trees of entries; a comma belongs to the entry before it. -/
def listedTrees {α : Type} (tree : List Mark → α → Tree) : List α → List Tree
  | [] => []
  | x :: xs => tree (separator xs) x :: listedTrees tree xs

theorem chunksOfTypes_eq (ts : List TypeExpr) : chunksOfTypes ts = listed TypeExpr.chunks ts := by
  induction ts with
  | nil => rfl
  | cons t ts ih => rw [chunksOfTypes, listed, ih]

theorem treesOfTypes_eq (ts : List TypeExpr) : treesOfTypes ts =
    listedTrees (fun after t => .node .genericArgument (t.tree :: after.map Mark.leaf)) ts := by
  induction ts with
  | nil => rfl
  | cons t ts ih => rw [treesOfTypes, listedTrees, ih]

theorem chunksOfElements_eq (es : List Element) : chunksOfElements es = listed Element.chunks es := by
  induction es with
  | nil => rfl
  | cons e es ih => rw [chunksOfElements, listed, ih]

theorem treesOfElements_eq (es : List Element) :
    treesOfElements es = listedTrees (fun after e => e.tree after) es := by
  induction es with
  | nil => rfl
  | cons e es ih => rw [treesOfElements, listedTrees, ih]

end SwiftOutline
