import SwiftOutline.Proofs.Grammar.Cut
import SwiftOutline.Proofs.Tree.Every

/-!
# `Origin` — which rule a node was read by

A tree does not say how it was read. For three sorts of node it matters: a function type was read by the
rule for parentheses, a declaration by the rule for items, and the type that a parameter, an element or a
clause holds by the rule for types, each from some list of tokens and with some levels of nesting to
spare. With what is known of these rules over a cut, all three can be read again from their own tokens
alone.
-/

namespace SwiftOutline

namespace Rule

theorem isDecl_declarationKind (keyword : String) : (declarationKind keyword).isDecl = true := by
  unfold declarationKind
  split <;> rfl

/-- The node is no type, or one with the property. -/
def IfType (T : Tree → Prop) (kind : NodeKind) (cs : List Tree) : Prop :=
  kind.isType = true → T (.node kind cs)

end Rule

/-! ## The kinds of node whose origin matters -/

/-- The kinds of node that hold a type beside tokens and clauses. -/
def NodeKind.holdsType : NodeKind → Bool
  | tupleTypeElement | genericArgument | functionParameter | enumCaseParameter | typeClause | typeInitializer
  | returnClause | typeRoot => true
  | _ => false

/-- The kinds of node that list nodes which hold a type. -/
def NodeKind.listsHolders : NodeKind → Bool
  | tupleTypeElementList | genericArgumentClause | parameterClause | enumCaseParameterClause => true
  | _ => false

/-- The kinds of node whose origin does not matter. -/
def NodeKind.isPlain : NodeKind → Bool
  | functionType => false
  | k => !(k.isDecl || k.holdsType)

/-- No kind of node is of two of these sorts. -/
theorem NodeKind.of_isPlain {k : NodeKind} (h : k.isPlain = true) :
    k ≠ .functionType ∧ k.isDecl = false ∧ k.holdsType = false := by
  constructor
  · rintro rfl
    cases h
  · cases k <;> first | exact ⟨rfl, rfl⟩ | cases h

theorem NodeKind.of_isDecl {k : NodeKind} (h : k.isDecl = true) :
    k ≠ .functionType ∧ k.holdsType = false := by
  constructor
  · rintro rfl
    cases h
  · cases k <;> first | rfl | cases h

theorem NodeKind.of_holdsType {k : NodeKind} (h : k.holdsType = true) :
    k ≠ .functionType ∧ k.isDecl = false := by
  constructor
  · rintro rfl
    cases h
  · cases k <;> first | rfl | cases h

/-! ## Origins -/

/-- The tree was read by the rule for types. -/
def Tree.ReadAsType (u : Tree) : Prop :=
  ∃ n ≤ nestingLimit, ∃ ts rest, (∀ t ∈ ts, t.Lexical) ∧ Rule.type n ts = .ok ([u], rest)

/-- A function type was read by the rule for parentheses, a declaration by the rule for items, and the
types that a node holds by the rule for types. -/
structure Tree.Original (kind : NodeKind) (cs : List Tree) : Prop where
  functionType : kind = .functionType → ∃ n < nestingLimit, ∃ ts rest, (∀ t ∈ ts, t.Lexical) ∧
    sees "(" ts = true ∧ Rule.parenType (Rule.type n) ts = .ok ([.node kind cs], rest)
  declaration : kind.isDecl = true → ∃ n ≤ nestingLimit, ∃ ts rest, (∀ t ∈ ts, t.Lexical) ∧
    Rule.item n ts = .ok ([.node kind cs], rest)
  holder : kind.holdsType = true → ∀ ⦃k ds⦄, .node k ds ∈ cs → Rule.IfType ReadAsType k ds
  list : kind.listsHolders = true → ∀ ⦃k ds⦄, .node k ds ∈ cs → k.holdsType = true

/-- The tree was read by the rule for types, with so many levels or fewer. -/
def Tree.ReadWithin (levels : Nat) (u : Tree) : Prop :=
  ∃ n ≤ levels, ∃ ts rest, (∀ t ∈ ts, t.Lexical) ∧ Rule.type n ts = .ok ([u], rest)

/-- The types that a node holds were read with so many levels or fewer. -/
def Tree.HoldsWithin (levels : Nat) (kind : NodeKind) (cs : List Tree) : Prop :=
  kind.holdsType = true → ∀ ⦃k ds⦄, .node k ds ∈ cs → Rule.IfType (ReadWithin levels) k ds

end SwiftOutline
