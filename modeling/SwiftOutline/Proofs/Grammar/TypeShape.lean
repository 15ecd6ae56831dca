import SwiftOutline.Proofs.Grammar.TypeSyntax
import SwiftOutline.Proofs.Tree.Relabel

/-!
# `TypeShape` — the tree of a type determines the type

Two types have the same tree, apart from gaps and places, only if they are the same, since the type can
be read off the tree. The node that was put around a tree last says what to do with the type inside it: a
suffix goes behind it, a specifier in front of it, and a composition puts it before others.
-/

namespace SwiftOutline

open List

/-! ## Trees without gaps and places -/

/-- The token without its gap and its place. -/
def Token.bare (t : Token) : Token := ⟨t.kind, "", t.text, 0, false⟩

namespace Tree

/-- The tree without the gaps and places of its tokens. -/
def bare (t : Tree) : Tree := t.relabel Token.bare

@[simp] theorem bare_token (t : Token) : (token t).bare = token t.bare := relabel_token Token.bare t

@[simp] theorem bare_node (k : NodeKind) (cs : List Tree) : (node k cs).bare = node k (cs.map bare) :=
  relabel_node Token.bare k cs

/-! ## Words -/

/-- The tree is a leaf with this text. -/
def isLeaf (text : String) : Tree → Bool
  | token t => t.text == text
  | node _ _ => false

/-- The word that a leaf is. -/
def word? : Tree → Option Word
  | token t => if h : isPlainWord t.text = true then some ⟨t.text, h⟩ else none
  | node _ _ => none

def specifier? (u : Tree) : Option Specifier := do
  let w ← u.word?
  if h : typeSpecifiers.contains w.text = true then some ⟨w, h⟩ else none

def memberName? (u : Tree) : Option MemberName := do
  let w ← u.word?
  if h : ["Type", "Protocol"].contains w.text = false then some ⟨w, h⟩ else none

def effect? (u : Tree) : Option Effect :=
  [Effect.async, .reasync, .throws, .rethrows].find? fun e => u.isLeaf e.word.text

def attribute? : Tree → Option Word
  | node _ [_, name] => name.word?
  | _ => none

end Tree

@[simp] theorem Word.word?_token (w : Word) : (Tree.token w.token.bare).word? = some w := dif_pos w.plain

@[simp] theorem Specifier.specifier?_token (s : Specifier) :
    (Tree.token s.word.token.bare).specifier? = some s := by
  rw [Tree.specifier?, s.word.word?_token]
  exact dif_pos s.listed

@[simp] theorem MemberName.memberName?_token (name : MemberName) :
    (Tree.token name.word.token.bare).memberName? = some name := by
  rw [Tree.memberName?, name.word.word?_token]
  exact dif_pos name.unlisted

/-! ## Types -/

namespace TypeExpr

/-- The type with this in front of it, if it is an operand that may have it there. -/
def behind (front : Front) : TypeExpr → Option TypeExpr
  | operand (.closed (.plain .bare head suffixes)) => some (operand (.closed (.plain front head suffixes)))
  | operand (.closed (.bracketed .bare _ brackets suffixes)) =>
    if h : front.isSomeOrAny =
      false then some (operand (.closed (.bracketed front h brackets suffixes))) else none
  | operand (.function .bare inputs effects result) => some (operand (.function front inputs effects result))
  | _ => none

/-- The type with one more suffix, if it is an operand that may have one. -/
def before (suffix : Suffix) : TypeExpr → Option TypeExpr
  | operand (.closed (.plain front head suffixes)) =>
    some (operand (.closed (.plain front head (suffixes ++ [suffix]))))
  | operand (.closed (.bracketed front h brackets suffixes)) =>
    some (operand (.closed (.bracketed front h brackets (suffixes ++ [suffix]))))
  | _ => none

/-- The composition of an operand and others. -/
def and : TypeExpr → TypeExpr → Option TypeExpr
  | operand (.closed first), others => some (both first others)
  | _, _ => none

/-- The type with specifiers and attributes in front of it. -/
def marked (specifiers : List Specifier) (attributes : List Word) (t : TypeExpr) : Option TypeExpr :=
  if h : (specifiers.isEmpty && attributes.isEmpty) = false then t.behind
    (.marked specifiers attributes h) else none

end TypeExpr

namespace Tree

mutual

/-- The type that the tree was made from. -/
def type? : Tree → Option TypeExpr
  | token _ => none
  | node kind cs =>
    match kind, cs with
    | .compositionType, cs => operands? cs
    | .attributedType, cs => marked? [] cs
    | .someOrAnyType, [w, u] => do (← type? u).behind (.someOrAny (w.isLeaf "any"))
    | .suppressedType, [_, u] => do (← type? u).behind .suppressed
    | .optionalType, [u, _] => do (← type? u).before .optional
    | .implicitlyUnwrappedOptionalType, [u, _] => do (← type? u).before .unwrapped
    | .metatypeType, [u, _, w] => do (← type? u).before (.metatype (w.isLeaf "Protocol"))
    | .memberType, u :: _ :: w :: clause =>
      do (← type? u).before (.member (← w.memberName?) (← arguments? clause))
    | .identifierType, w :: clause => do
      return .operand (.closed (.plain .bare (.name (← w.word?) (← arguments? clause)) []))
    | .tupleType, [_, .node _ es, _] =>
      do return .operand (.closed (.plain .bare (.tuple (← elements? es)) []))
    | .arrayType, [_, u, _] => do return .operand (.closed (.bracketed .bare rfl (.array (← type? u)) []))
    | .dictionaryType, [_, u, _, v, _] => do
      return .operand (.closed (.bracketed .bare rfl (.dictionary (← type? u) (← type? v)) []))
    | .functionType, [_, .node _ es, _, _, u] =>
      do return .operand (.function .bare (← elements? es) [] (← type? u))
    | .functionType, [_, .node _ es, _, .node _ effects, _, u] => do
      return .operand (.function .bare (← elements? es) (← effects.mapM effect?) (← type? u))
    | _, _ => none

/-- The type of operands with marks between them. -/
def operands? : List Tree → Option TypeExpr
  | [u] => type? u
  | u :: _ :: us => do (← type? u).and (← operands? us)
  | [] => none

/-- The type with specifiers and attributes in front of it. -/
def marked? (specifiers : List Specifier) : List Tree → Option TypeExpr
  | token t :: cs => do marked? (specifiers ++ [← (token t).specifier?]) cs
  | [node _ names, u] => do (← type? u).marked specifiers (← names.mapM attribute?)
  | [u] => do (← type? u).marked specifiers []
  | _ => none

/-- The generic arguments in a clause, if there is one. -/
def arguments? : List Tree → Option (List TypeExpr)
  | [node _ (_ :: entries)] => entries? entries
  | _ => some []

def entries? : List Tree → Option (List TypeExpr)
  | node _ (u :: _) :: es => do return (← type? u) :: (← entries? es)
  | _ => some []

def elements? : List Tree → Option (List Element)
  | node _ cs :: es => do return (← element? cs) :: (← elements? es)
  | _ => some []

/-- The element with these children. Labels are tokens and a type is none. -/
def element? : List Tree → Option Element
  | node k cs :: after => do return .mk .none (← type? (node k cs)) (after.head?.any (isLeaf "..."))
  | name :: _ :: node k cs :: after => do
    return .mk (.one (← name.word?)) (← type? (node k cs)) (after.head?.any (isLeaf "..."))
  | name :: second :: _ :: u :: after => do
    return .mk (.two (← name.word?) (← second.word?)) (← type? u) (after.head?.any (isLeaf "..."))
  | _ => none

end

theorem exists_node_of_type? {u : Tree} {t : TypeExpr} (h : u.type? = some t) : ∃ k cs, u = node k cs := by
  cases u with
  | token t => simp [type?] at h
  | node k cs => exact ⟨k, cs, rfl⟩

theorem mapM_map_bare {α : Type} {f : α → Tree} {g : Tree → Option α} (h : ∀ a, g (f a).bare = some a)
    (l : List α) : ((l.map f).map bare).mapM g = some l := by
  induction l with
  | nil => rfl
  | cons a l ih =>
    rw [List.map_cons, List.map_cons, mapM_cons, h, ih]
    rfl

/-- Specifiers are tokens, and what follows them begins with a node. -/
theorem marked?_specifiers (specifiers done : List Specifier) (f : List Tree) :
    marked? done (specifiers.map (·.word.leaf.bare) ++ f) = marked? (done ++ specifiers) f := by
  induction specifiers generalizing done with
  | nil => rw [map_nil, nil_append, append_nil]
  | cons s specifiers ih =>
    have hrest := ih (done ++ [s])
    rw [append_assoc] at hrest
    simpa [Word.leaf, marked?] using hrest

theorem element?_leaves (labels : ElementLabels) {u : Tree} {type : TypeExpr} (hu : u.type? = some type)
    (after : List Tree) :
    element? (labels.leaves.map bare ++ u :: after) = some
      (.mk labels type (after.head?.any (isLeaf "..."))) := by
  obtain ⟨k, cs, rfl⟩ := exists_node_of_type? hu
  cases labels <;> simp [ElementLabels.leaves, Word.leaf, Mark.leaf, element?, hu]

end Tree

open SwiftOutline.Tree

theorem TypeExpr.eq_of_behind_bare {t t' : TypeExpr} (h : t.behind .bare = some t') : t = t' := by
  unfold behind at h
  split at h
  · exact Option.some.inj h
  · exact Option.some.inj h
  · exact Option.some.inj h
  · cases h

/-- What stands in front of an operand is read off its tree. -/
theorem Front.type?_tree (front : Front) {u : Tree} {t t' : TypeExpr} (hu : u.bare.type? = some t)
    (ht : t.behind front = some t') : (front.tree u).bare.type? = some t' := by
  cases front with
  | bare =>
    rw [← TypeExpr.eq_of_behind_bare ht]
    exact hu
  | marked specifiers attributes marks =>
    have hmarked : t.marked specifiers attributes = some t' := (dif_pos marks).trans ht
    have hspecifiers := marked?_specifiers specifiers [] ((attributeTrees attributes ++ [u]).map Tree.bare)
    rw [Front.tree, bare_node, map_append, map_map, type?]
    refine hspecifiers.trans ?_
    rw [nil_append, map_append, map_singleton]
    generalize u.bare = u at hu
    obtain ⟨k, cs, rfl⟩ := exists_node_of_type? hu
    cases attributes with
    | nil => simp [attributeTrees, marked?, hu, hmarked]
    | cons name names =>
      have hnames := mapM_map_bare (f := attributeTree) (g := attribute?) Word.word?_token (name :: names)
      simp only [attributeTrees, map_singleton, bare_node, singleton_append, marked?, hu, hnames,
        Option.bind_eq_bind, Option.bind_some, hmarked]
  | someOrAny isAny => cases isAny <;> simp [Front.tree, type?, hu, ← ht] <;> rfl
  | suppressed => simp [Front.tree, type?, hu, ht]

mutual

/-- Types are read off their trees. -/
theorem TypeExpr.type?_tree : (t : TypeExpr) → t.tree.bare.type? = some t
  | .operand o => o.type?_tree
  | .both first others => by
    have hall := (TypeExpr.both first others).operands?_trees
    rw [TypeExpr.tree, bare_node, type?]
    exact hall

theorem TypeExpr.operands?_trees : (t : TypeExpr) → operands? (t.operandTrees.map bare) = some t
  | .operand o => o.type?_tree
  | .both first others => by
    have hothers := others.operands?_trees
    have hfirst := first.type?_tree
    simp [TypeExpr.operandTrees, operands?, hothers, hfirst, TypeExpr.and]

theorem Operand.type?_tree : (o : Operand) → o.tree.bare.type? = some (.operand o)
  | .closed c => c.type?_tree
  | .function front inputs effects result => by
    have hinputs := elements?_trees inputs
    have hresult := result.type?_tree
    refine front.type?_tree (t := .operand (.function .bare inputs effects result)) ?_ rfl
    cases effects with
    | nil => simp [effectTrees, type?, hinputs, hresult]
    | cons e es =>
      have heffects := mapM_map_bare (f := fun e : Effect => e.word.leaf) (g := effect?)
          (by intro e; cases e <;> rfl)
        (e :: es)
      simp only [effectTrees, cons_append, nil_append, bare_node, List.map_cons,
        map_nil, type?, hinputs, hresult, Option.bind_eq_bind, Option.bind_some] at heffects ⊢
      rw [heffects]
      rfl

theorem Closed.type?_tree : (c : Closed) → c.tree.bare.type? = some (.operand (.closed c))
  | .plain front head suffixes =>
    front.type?_tree (type?_suffixes suffixes (.plain .bare head) (fun _ _ => rfl)
      [] head.tree head.type?_tree) rfl
  | .bracketed front allowed brackets suffixes =>
    front.type?_tree (type?_suffixes suffixes (.bracketed .bare rfl brackets)
      (fun _ _ => rfl) [] brackets.tree
      brackets.type?_tree) (dif_pos allowed)

theorem Head.type?_tree : (head : Head) → head.tree.bare.type? =
  some (.operand (.closed (.plain .bare head [])))
  | .name w arguments => by
    have harguments := arguments?_trees arguments
    simp [Head.tree, Word.leaf, type?, harguments]
  | .tuple elements => by
    have helements := elements?_trees elements
    simp [Head.tree, type?, helements]

theorem Brackets.type?_tree : (brackets : Brackets) →
    brackets.tree.bare.type? = some (.operand (.closed (.bracketed .bare rfl brackets [])))
  | .array element => by
    have helement := element.type?_tree
    simp [Brackets.tree, type?, helement]
  | .dictionary key value => by
    have hkey := key.type?_tree
    have hvalue := value.type?_tree
    simp [Brackets.tree, type?, hkey, hvalue]

theorem Suffix.type?_tree {u : Tree} {t : TypeExpr} (hu : u.bare.type? = some t) :
    (s : Suffix) → (s.tree u).bare.type? = t.before s
  | .optional => by simp [Suffix.tree, type?, hu]
  | .unwrapped => by simp [Suffix.tree, type?, hu]
  | .metatype isProtocol => by cases isProtocol <;> simp [Suffix.tree, type?, hu] <;> rfl
  | .member name arguments => by
    have harguments := arguments?_trees arguments
    simp [Suffix.tree, Word.leaf, type?, hu, harguments]

/-- Suffixes are put around the tree one after another. -/
theorem type?_suffixes : (ss : List Suffix) → ∀ (c : List Suffix → Closed)
    (_ : ∀ done s, (TypeExpr.operand (.closed (c done))).before s =
      some (.operand (.closed (c (done ++ [s])))))
    (done : List Suffix) (u : Tree), u.bare.type? = some (.operand (.closed (c done))) →
    (treeOfSuffixes u ss).bare.type? = some (.operand (.closed (c (done ++ ss))))
  | [], c, _, done, u, hu => by
    rw [append_nil]
    exact hu
  | s :: ss, c, hc, done, u, hu => by
    have hrest := type?_suffixes ss c hc (done ++ [s]) (s.tree u) (by rw [s.type?_tree hu, hc])
    rw [append_assoc] at hrest
    exact hrest

theorem arguments?_trees :
  (ts : List TypeExpr) → arguments? ((clauseTrees ts (treesOfTypes ts)).map bare) = some ts
  | [] => by simp [clauseTrees, arguments?]
  | t :: ts => by
    have hentries := entries?_trees (t :: ts)
    simpa [clauseTrees, arguments?] using hentries

theorem entries?_trees : (ts : List TypeExpr) →
    entries? ((treesOfTypes ts).map bare ++ [Mark.angleClose.leaf.bare]) = some ts
  | [] => rfl
  | t :: ts => by
    have ht := t.type?_tree
    have hts := entries?_trees ts
    simp [treesOfTypes, entries?, ht, hts]

theorem elements?_trees : (es : List Element) → elements? ((treesOfElements es).map bare) = some es
  | [] => by simp [treesOfElements, elements?]
  | .mk labels type variadic :: es => by
    have hrest := elements?_trees es
    have hfirst := element?_leaves labels type.type?_tree
      (((ellipsisOf variadic).map Mark.leaf ++ (separator es).map Mark.leaf).map bare)
    have hvariadic : (((ellipsisOf variadic).map Mark.leaf ++
        (separator es).map Mark.leaf).map bare).head?.any
        (isLeaf "...") = variadic := by
      cases variadic <;> cases es <;> rfl
    rw [hvariadic, ← List.map_cons, ← map_append] at hfirst
    simp only [treesOfElements, List.map_cons, Element.tree, bare_node, elements?, hfirst, hrest]
    rfl

end

/-- **Types are told apart by their trees.** -/
theorem TypeExpr.tree_inj {t t' : TypeExpr} (h : t.tree.bare = t'.tree.bare) : t = t' := by
  have htype := t.type?_tree
  rw [h, t'.type?_tree] at htype
  exact (Option.some.inj htype).symm

end SwiftOutline
