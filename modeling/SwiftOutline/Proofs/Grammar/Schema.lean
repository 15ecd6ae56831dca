import SwiftOutline.Proofs.Grammar.Termination

/-!
# `Schema` — what the children of a node look like

The rules of the grammar leave behind nodes of a fixed make: a function type is a parenthesis, a list, a
parenthesis, perhaps effects, an arrow and a type. Here that make is data. A `Layout` describes a list of
trees as a regular expression describes a word, and `childLayout` gives the layout of the children of
each kind of node.

`Rule.Fits` is a triple: from an input with one property a rule reads trees of a layout, all of whose
nodes are as they should be, and leaves a rest with another property. The properties carry what a
lookahead has seen to the rule that reads it. There is one lemma for each way of putting rules together;
the rules of the grammar follow in `SchemaRules`.
-/

namespace SwiftOutline

open List

/-! ## Layouts -/

/-- What a token is asked for. -/
inductive TokenClass where
  | text (texts : List String)
  | word
  | kind (k : TokenKind)
  | operator
  | any

def TokenClass.holds : TokenClass → Token → Bool
  | text texts, t => texts.contains t.text
  | word, t => t.isWord
  | kind k, t => t.kind == k
  | operator, t => isOperatorToken t
  | any, _ => true

/-- The layout of a list of trees: nothing, one token, one node, one node whose children have a layout of
their own, the tokens of a bracket group or of a run that may end at a comma, one layout after another,
one of two, or one any number of times. -/
inductive Layout where
  | empty
  | token (c : TokenClass)
  | node (kinds : List NodeKind)
  | filled (kind : NodeKind) (a : Layout)
  | group
  | run (comma : Bool)
  | seq (a b : Layout)
  | alt (a b : Layout)
  | star (a : Layout)

namespace Layout

instance : Append Layout := ⟨seq⟩

/-- A token with this text. -/
def mark (text : String) : Layout := token (.text [text])

def word : Layout := token .word

/-- The layout or nothing. -/
def opt (a : Layout) : Layout := alt a empty

/-- The trees have the layout, as part of what was read from the tokens `all`. -/
def Matches (all : List Token) : Layout → List Tree → Prop
  | empty, f => f = []
  | token c, f => ∃ t, f = [.token t] ∧ t.Lexical ∧ c.holds t = true
  | node kinds, f => ∃ k ∈ kinds, ∃ cs, f = [.node k cs]
  | filled kind a, f => ∃ cs, f = [.node kind cs] ∧ a.Matches all cs
  | group, f =>
    ∃ first tail, f = (first :: tail).map .token ∧ isOpener first = true ∧ takeGroup 1 tail = some (tail, [])
  | run comma, f =>
    ∃ run rest, f = run.map .token ∧ (run ++ rest) <:+ all ∧ takeRun comma false 0 (run ++ rest) = (run, rest)
  | seq a b, f => ∃ g h, f = g ++ h ∧ a.Matches all g ∧ b.Matches all h
  | alt a b, f => a.Matches all f ∨ b.Matches all f
  | star a, f => ∃ gs : List (List Tree), f = gs.flatten ∧ ∀ g ∈ gs, a.Matches all g

/-- The kinds of node that a layout may have at its top. -/
def kinds : Layout → List NodeKind
  | node kinds => kinds
  | filled kind _ => [kind]
  | seq a b | alt a b => a.kinds ++ b.kinds
  | star a => a.kinds
  | _ => []

theorem mem_kinds {all : List Token} {k : NodeKind} {ds : List Tree} {s : Layout} {f : List Tree}
    (h : s.Matches all f) (hmem : .node k ds ∈ f) : k ∈ s.kinds := by
  -- a list of tokens has no node
  have hrun {run : List Token} (hmem : Tree.node k ds ∈ run.map .token) : False := by
    obtain ⟨t, -, ht⟩ := mem_map.mp hmem
    cases ht
  induction s generalizing f with
  | empty =>
    cases h
    cases hmem
  | token c =>
    obtain ⟨t, rfl, -⟩ := h
    exact (@hrun [t] hmem).elim
  | node kinds =>
    obtain ⟨j, hj, cs, rfl⟩ := h
    cases mem_singleton.mp hmem
    exact hj
  | filled kind a =>
    obtain ⟨cs, rfl, -⟩ := h
    cases mem_singleton.mp hmem
    exact mem_singleton_self k
  | group =>
    obtain ⟨first, tail, rfl, -⟩ := h
    exact (hrun hmem).elim
  | run comma =>
    obtain ⟨run, rest, rfl, -⟩ := h
    exact (hrun hmem).elim
  | seq a b iha ihb =>
    obtain ⟨g, g', rfl, hg, hg'⟩ := h
    rcases mem_append.mp hmem with hmem | hmem
    · exact mem_append_left _ (iha hg hmem)
    · exact mem_append_right _ (ihb hg' hmem)
  | alt a b iha ihb =>
    rcases h with h | h
    · exact mem_append_left _ (iha h hmem)
    · exact mem_append_right _ (ihb h hmem)
  | star a ih =>
    obtain ⟨gs, rfl, hgs⟩ := h
    obtain ⟨g, hg, hmem⟩ := mem_flatten.mp hmem
    exact ih (hgs g hg) hmem

end Layout

/-! ## The children of each kind of node -/

/-- The kinds of node that are types. -/
def typeKinds : List NodeKind :=
  [.identifierType, .memberType, .optionalType, .implicitlyUnwrappedOptionalType, .arrayType, .dictionaryType,
   .tupleType, .functionType, .attributedType, .someOrAnyType, .compositionType,
     .metatypeType, .suppressedType]

/-- The kinds of node that are items. -/
def itemKinds : List NodeKind :=
  [.importDecl, .classDecl, .structDecl, .enumDecl, .actorDecl, .protocolDecl, .extensionDecl, .functionDecl,
   .initializerDecl, .deinitializerDecl, .subscriptDecl, .variableDecl, .typealiasDecl, .associatedTypeDecl,
   .enumCaseDecl, .operatorDecl, .precedenceGroupDecl, .ifConfigDecl, .statement]

/-- The keywords that introduce a kind of declaration. -/
def keywordsOf (kind : NodeKind) : List String := declarationKeywords.filter (declarationKind · == kind)

namespace Layout

/-- One type. -/
def aType : Layout := node typeKinds

/-- One item, or a semicolon between items. -/
def anItem : Layout := alt (mark ";") (node itemKinds)

def items : Layout := star anItem

/-- The attributes, modifiers and keyword in front of a declaration. -/
def introduced (kind : NodeKind) : Layout :=
  opt (node [.attributeList]) ++ opt (node [.modifierList]) ++ token (.text (keywordsOf kind))

/-- The labels in front of an element's type. -/
def labels : Layout := alt (word ++ mark ":") (opt (word ++ word ++ mark ":"))

/-- What may follow the type of an element. -/
def afterElement : Layout :=
  opt (token (.kind .ellipsis)) ++ opt (node [.initializerClause]) ++ opt (mark ",")

/-- What follows the name of a container. -/
def container : Layout :=
  opt (node [.genericParameterClause]) ++ opt (node [.inheritanceClause]) ++
    opt (node [.genericWhereClause]) ++
    node [.memberBlock]

/-- A signature with all that goes with it. -/
def signature : Layout :=
  opt (node [.genericParameterClause]) ++ node [.functionSignature] ++ opt (node [.genericWhereClause])

/-- The first clause of conditional compilation. -/
def ifClause : Layout := mark "#if" ++ node [.ifConfigCondition] ++ items

/-- What follows the keyword of a declaration. -/
def declared : NodeKind → Layout
  | .importDecl => opt (token (.text importKinds)) ++ node [.importPath]
  | .classDecl | .structDecl | .enumDecl | .actorDecl | .protocolDecl => node [.name] ++ container
  | .extensionDecl => aType ++ container
  | .functionDecl => node [.name] ++ signature ++ opt (node [.codeBlock])
  | .initializerDecl => opt (token (.text ["?", "!"])) ++ signature ++ opt (node [.codeBlock])
  | .deinitializerDecl => opt (node [.codeBlock])
  | .subscriptDecl => signature ++ opt (node [.accessorBlock])
  | .variableDecl => node [.patternBinding] ++ star (mark "," ++ node [.patternBinding])
  | .typealiasDecl =>
    node [.name] ++ opt (node [.genericParameterClause]) ++ node [.typeInitializer] ++
      opt (node [.genericWhereClause])
  | .associatedTypeDecl =>
    node [.name] ++ opt (node [.inheritanceClause]) ++ opt (node [.typeInitializer]) ++
      opt (node [.genericWhereClause])
  | .enumCaseDecl => node [.enumCaseElement] ++ star (mark "," ++ node [.enumCaseElement])
  | .operatorDecl => node [.name] ++ opt (node [.operatorPrecedence]) ++ opt (node [.opaqueBlock])
  | _ => node [.name] ++ node [.opaqueBlock]

end Layout

open Layout in
/-- The layout of the children of a node. -/
def childLayout : NodeKind → Layout
  | .sourceFile => items
  | .typeRoot => aType ++ opt (token (.kind .ellipsis)) ++ empty
  | .ifConfigDecl => filled .ifConfigClause ifClause ++ star (node [.ifConfigClause]) ++ mark "#endif"
  | .ifConfigClause =>
    alt (mark "#else") (token (.text ["#if", "#elseif"]) ++ node [.ifConfigCondition]) ++ items
  | .ifConfigCondition => token .any ++ star (token .any)
  | .attributeList => star (node [.declAttribute])
  | .declAttribute =>
    token (.kind .atSign) ++ word ++ star (mark "." ++ word) ++ opt (node [.attributeArguments])
  | .attributeArguments | .accessorBlock | .opaqueBlock => group
  | .modifierList => star (node [.declModifier])
  | .declModifier => alt word (word ++ mark "(" ++ token (.text modifierDetails) ++ mark ")")
  | .name => alt word (token .operator ++ star (token .operator))
  | .importPath => word ++ star (mark "." ++ token .any)
  | .memberBlock | .codeBlock => mark "\x7b" ++ items ++ mark "\x7d"
  | .genericParameterClause => mark "<" ++ star (node [.genericParameter]) ++ mark ">"
  | .genericParameter => opt (mark "each") ++ word ++ opt (mark ":" ++ aType) ++ opt (mark ",")
  | .genericWhereClause => mark "where" ++ star (token .any)
  | .inheritanceClause => mark ":" ++ (node [.inheritedType] ++ star (node [.inheritedType]))
  | .inheritedType | .genericArgument => aType ++ opt (mark ",")
  | .functionSignature =>
    node [.parameterClause] ++ opt (node [.effectSpecifiers]) ++ opt (node [.returnClause])
  | .parameterClause => mark "(" ++ star (node [.functionParameter]) ++ mark ")"
  | .functionParameter =>
    opt (node [.attributeList]) ++ word ++ opt word ++ mark ":" ++ aType ++ afterElement
  | .effectSpecifiers =>
    star (alt (token (.text ["throws", "rethrows"]) ++ opt group) (token (.text ["async", "reasync"])))
  | .returnClause => token (.kind .arrow) ++ aType
  | .patternBinding =>
    node [.pattern] ++ opt (node [.typeClause]) ++ opt (node [.initializerClause]) ++
      opt (node [.accessorBlock])
  | .pattern => alt group word
  | .typeClause => mark ":" ++ aType
  | .typeInitializer => mark "=" ++ aType
  | .initializerClause => mark "=" ++ node [.expr]
  | .enumCaseElement =>
    node [.name] ++ opt (node [.enumCaseParameterClause]) ++ opt (node [.initializerClause])
  | .enumCaseParameterClause => mark "(" ++ star (node [.enumCaseParameter]) ++ mark ")"
  | .enumCaseParameter | .tupleTypeElement => labels ++ aType ++ afterElement
  | .operatorPrecedence => mark ":" ++ word ++ star (mark "," ++ word)
  | .expr => run true
  | .statement => run false
  | .identifierType => word ++ opt (node [.genericArgumentClause])
  | .memberType => aType ++ (mark "." ++ word ++ opt (node [.genericArgumentClause]))
  | .genericArgumentClause => mark "<" ++ star (node [.genericArgument]) ++ mark ">"
  | .optionalType => aType ++ mark "?"
  | .implicitlyUnwrappedOptionalType => aType ++ mark "!"
  | .arrayType => mark "[" ++ aType ++ mark "]"
  | .dictionaryType => mark "[" ++ aType ++ (mark ":" ++ aType ++ mark "]")
  | .tupleType => mark "(" ++ node [.tupleTypeElementList] ++ mark ")" ++ empty
  | .tupleTypeElementList => star (node [.tupleTypeElement])
  | .functionType =>
    mark "(" ++ node [.tupleTypeElementList] ++ mark ")" ++
      (opt (node [.effectSpecifiers]) ++ token (.kind .arrow) ++ aType)
  | .attributedType => star (token (.text typeSpecifiers)) ++ opt (node [.attributeList]) ++ aType
  | .someOrAnyType => token (.text ["some", "any"]) ++ aType
  | .compositionType => aType ++ star (mark "&" ++ aType)
  | .metatypeType => aType ++ (mark "." ++ token (.text ["Type", "Protocol"]))
  | .suppressedType => mark "~" ++ aType
  | kind => introduced kind ++ declared kind

/-! ## Triples -/

namespace Rule

open Layout Lookahead

/-- The answer is no. -/
def Refused (ask : Lookahead) (ts : List Token) : Prop := ask ts = false

/-- From the last tokens of `all`, if they have the property `pre`, the rule reads trees of the layout,
    all nodes of which have the property `P`, and leaves tokens with the property `post`. -/
structure Fits (all : List Token) (P : NodeKind → List Tree → Prop) (pre : List Token → Prop) (s : Layout)
    (post : List Token → Prop) (p : Rule) : Prop where
  keeps : Keeps p
  fits : ∀ ⦃ts : List Token⦄ ⦃f : List Tree⦄ ⦃rest : List Token⦄, Token.Tail all ts → pre ts →
    p ts = .ok (f, rest) → s.Matches all f ∧ post rest ∧ ∀ u ∈ f, u.Every P

/-- A triple that says nothing of the rest. -/
abbrev Reads (all : List Token) (P : NodeKind → List Tree → Prop) (pre : List Token → Prop) (s : Layout)
    (p : Rule) : Prop :=
  Fits all P pre s Anywhere p

section

variable {all : List Token} {P : NodeKind → List Tree → Prop} {pre mid post : List Token → Prop}
  {s s' : Layout} {p q : Rule}

/-- A triple with a stronger property of the input, a weaker one of the rest and a wider layout. -/
theorem Fits.imp {pre' post' : List Token → Prop} (h : Fits all P pre s post p)
    (hpre : ∀ ⦃ts⦄, pre' ts → pre ts) (hlayout : ∀ ⦃f⦄, s.Matches all f → s'.Matches all f)
    (hpost : ∀ ⦃ts⦄, post ts → post' ts) : Fits all P pre' s' post' p where
  keeps := h.keeps
  fits _ _ _ htail hin hok :=
    have ⟨hmatch, hrest, hevery⟩ := h.fits htail (hpre hin) hok
    ⟨hlayout hmatch, hpost hrest, hevery⟩

/-- A triple with a stronger property of the input. -/
theorem Fits.given {pre' : List Token → Prop} (h : Fits all P pre s post p)
    (hpre : ∀ ⦃ts⦄, pre' ts → pre ts) : Fits all P pre' s post p :=
  h.imp hpre (fun _ hf => hf) fun _ hrest => hrest

theorem Fits.anywhere (h : Fits all P Anywhere s post p) : Fits all P pre s post p :=
  h.given fun _ _ => trivial

theorem Fits.forget (h : Fits all P pre s post p) : Reads all P pre s p :=
  h.imp (fun _ hin => hin) (fun _ hf => hf) fun _ _ => trivial

/-- Something else is known of the rest. -/
theorem Fits.leaving {post' : List Token → Prop} (h : Fits all P pre s post p)
    (hrest : ∀ ⦃ts f rest⦄, Token.Tail all ts → pre ts → p ts = .ok (f, rest) → post' rest) :
    Fits all P pre s post' p where
  keeps := h.keeps
  fits _ _ _ htail hin hok :=
    have ⟨hmatch, _, hevery⟩ := h.fits htail hin hok
    ⟨hmatch, hrest htail hin hok, hevery⟩

variable {kind : NodeKind} {ask : Lookahead}

variable {kinds : List NodeKind} {ask : Lookahead}

/-- The kind of a node may be one of several. -/
theorem Fits.oneOf (h : Fits all P pre (.node [kind]) post p)
    (hmem : kind ∈ kinds) : Fits all P pre (.node kinds) post p := by
  refine h.imp (fun _ hin => hin) ?_ fun _ hrest => hrest
  rintro f ⟨k, hk, cs, rfl⟩
  exact ⟨k, mem_singleton.mp hk ▸ hmem, cs, rfl⟩

theorem every_map_token (run : List Token) : ∀ u ∈ run.map Tree.token, u.Every P := by
  intro u hu
  obtain ⟨t, -, rfl⟩ := mem_map.mp hu
  exact .token t

theorem fits_nothing : Fits all P pre empty pre nothing where
  keeps := keeps_nothing
  fits ts f rest _ hin hok := by
    cases hok
    exact ⟨rfl, hin, fun u hu => by cases hu⟩

theorem fits_fail (what : String) : Fits all P pre s post (fail what) where
  keeps := keeps_fail what
  fits _ _ _ _ _ hok := by cases hok

theorem fits_tooDeep : Fits all P pre s post tooDeep where
  keeps := keeps_tooDeep
  fits _ _ _ _ _ hok := by cases hok

/-- One token, about which something is known beforehand. -/
theorem fits_bump {c : TokenClass} (h : ∀ ⦃ts⦄, pre ts → ∃ t rest, ts = t :: rest ∧ c.holds t = true) :
    Reads all P pre (.token c) bump where
  keeps := keeps_bump
  fits ts f rest htail hin hok := by
    obtain ⟨t, rest, rfl, hc⟩ := h hin
    cases hok
    exact ⟨⟨t, rfl, htail.mem mem_cons_self, hc⟩, trivial, every_map_token [t]⟩

/-- A token that was seen by its head alone. -/
theorem fits_bump_head {c : TokenClass} (hask : ask.OfHead)
    (h : ∀ t ts, ask (t :: ts) = true → c.holds t = true) : Reads all P (Asked ask) (.token c) bump := by
  refine fits_bump fun ts hin => ?_
  obtain ⟨t, rest, rfl⟩ := hask.exists_cons hin
  exact ⟨t, rest, rfl, h t rest hin⟩

theorem fits_mark (text : String) : Reads all P (Asked (sees text)) (mark text) bump :=
  fits_bump_head (ofHead_sees text) fun t ts h => by simpa [TokenClass.holds, sees] using h

theorem fits_kind (kind : TokenKind) :
    Reads all P (Asked (seesKind kind)) (.token (.kind kind)) bump :=
  fits_bump_head (ofHead_seesKind kind) fun _ _ h => h

theorem fits_word : Reads all P (Asked seesWord) word bump :=
  fits_bump_head ofHead_seesWord fun _ _ h => h

theorem Fits.seq (hp : Fits all P pre s mid p) (hq : Fits all P mid s' post q) :
    Fits all P pre (s ++ s') post (p ++ q) where
  keeps := hp.keeps.seq hq.keeps
  fits ts f rest htail hin hok := by
    obtain ⟨f₁, between, f₂, h₁, h₂, rfl⟩ := seq_eq_ok hok
    obtain ⟨hmatch₁, hmid, hevery₁⟩ := hp.fits htail hin h₁
    obtain ⟨hmatch₂, hrest, hevery₂⟩ := hq.fits (htail.rest hp.keeps h₁) hmid h₂
    refine ⟨⟨f₁, f₂, rfl, hmatch₁, hmatch₂⟩, hrest, fun u hu => ?_⟩
    rcases mem_append.mp hu with hu | hu
    · exact hevery₁ u hu
    · exact hevery₂ u hu

theorem Fits.either (hp : Fits all P (fun ts => pre ts ∧ Asked ask ts) s post p)
    (hq : Fits all P (fun ts => pre ts ∧ Refused ask ts) s' post q) :
    Fits all P pre (alt s s') post (either ask p q) where
  keeps := hp.keeps.either hq.keeps ask
  fits ts f rest htail hin hok := by
    unfold Rule.either at hok
    split at hok
    · next hask =>
      obtain ⟨hmatch, hafter⟩ := hp.fits htail ⟨hin, hask⟩ hok
      exact ⟨.inl hmatch, hafter⟩
    · next hask =>
      obtain ⟨hmatch, hafter⟩ := hq.fits htail ⟨hin, Bool.eq_false_iff.mpr hask⟩ hok
      exact ⟨.inr hmatch, hafter⟩

/-- The first rule is never read. -/
theorem Fits.either_right (hp : Keeps p) (hno : ∀ ⦃ts⦄, pre ts → ask ts = false)
    (hq : Fits all P pre s post q) : Fits all P pre s post (Rule.either ask p q) where
  keeps := hp.either hq.keeps ask
  fits ts f rest htail hin hok := by
    rw [Rule.either, if_neg (by rw [hno hin]; exact Bool.false_ne_true)] at hok
    exact hq.fits htail hin hok

/-- Two rules of one layout. -/
theorem Fits.either_same (hp : Fits all P (fun ts => pre ts ∧ Asked ask ts) s post p)
    (hq : Fits all P (fun ts => pre ts ∧ Refused ask ts) s post q) :
    Fits all P pre s post (Rule.either ask p q) :=
  (hp.either hq).imp (fun _ hin => hin) (fun _ hf => hf.elim id id) fun _ hrest => hrest

/-- What is known of the answer, and nothing else. -/
theorem Fits.asked (hp : Fits all P (Asked ask) s post p) :
    Fits all P (fun ts => pre ts ∧ Asked ask ts) s post p :=
  hp.given fun _ hin => hin.2

theorem Fits.optional (hp : Reads all P (Asked ask) s p) :
    Reads all P pre (opt s) (optional ask p) :=
  hp.asked.either fits_nothing.forget

theorem Fits.require (what : String) (hp : Fits all P (fun ts => pre ts ∧ Asked ask ts) s post p) :
    Fits all P pre s post (require ask what p) :=
  hp.either_same (fits_fail what)

theorem fits_expect (text : String) : Reads all P pre (mark text) (expect text) :=
  Fits.require _ (fits_mark text).asked

theorem fits_expectWord (what : String) : Reads all P pre word (expectWord what) :=
  Fits.require _ fits_word.asked

/-- What a rule may not read without reading something. -/
theorem Fits.nonempty (hp : Fits all P pre s post p) (what : String) :
    Fits all P pre s post (nonempty what p) where
  keeps := hp.keeps.nonempty what
  fits _ _ _ htail hin hok := hp.fits htail hin (nonempty_eq_ok hok).1

/-- A node whose property follows from how its children were read. -/
theorem Fits.node_of (hp : Fits all P pre s post p)
    (hnode : ∀ ⦃ts cs rest⦄, Token.Tail all ts → pre ts → p ts = .ok (cs, rest) →
      s.Matches all cs → P kind cs) :
    Fits all P pre (.node [kind]) post (node kind p) where
  keeps := hp.keeps.node kind
  fits ts f rest htail hin hok := by
    obtain ⟨cs, hcs, rfl⟩ := node_eq_ok hok
    obtain ⟨hmatch, hrest, hevery⟩ := hp.fits htail hin hcs
    refine ⟨⟨kind, mem_singleton.mpr rfl, cs, rfl⟩, hrest, fun u hu => ?_⟩
    cases mem_singleton.mp hu
    exact .node (hnode htail hin hcs hmatch) hevery

theorem Fits.node {kind : NodeKind} (hp : Fits all P pre s post p)
    (hnode : ∀ ⦃cs⦄, s.Matches all cs → P kind cs) : Fits all P pre (.node [kind]) post (node kind p) :=
  hp.node_of fun _ _ _ _ _ _ hmatch => hnode hmatch

/-- A node with what is known of its children. -/
theorem Fits.filled (hp : Fits all P pre s post p) (hnode : ∀ ⦃cs⦄, s.Matches all cs → P kind cs) :
    Fits all P pre (.filled kind s) post (Rule.node kind p) where
  keeps := hp.keeps.node kind
  fits ts f rest htail hin hok := by
    obtain ⟨cs, hcs, rfl⟩ := node_eq_ok hok
    obtain ⟨hmatch, hrest, hevery⟩ := hp.fits htail hin hcs
    refine ⟨⟨cs, rfl, hmatch⟩, hrest, fun u hu => ?_⟩
    cases mem_singleton.mp hu
    exact .node (hnode hmatch) hevery

/-- A node whose kind and last part are decided by the tokens behind its first part. -/
theorem Fits.closing {first : NodeKind} {ask : List Token → NodeKind × Rule} (hp : Fits all P pre s mid p)
    (hq : ∀ ts, (ask ts).1 ∈ kinds ∧ ∃ s', Fits all P (fun us => us = ts) s' post (ask ts).2 ∧
      ∀ ⦃us cs rest⦄, Token.Tail all us → pre us → closing first p ask us =
      .ok ([.node (ask ts).1 cs], rest) → (s ++ s').Matches all cs → P (ask ts).1 cs) :
    Fits all P pre (.node kinds) post (closing first p ask) where
  keeps := by
    refine hp.keeps.closing fun ts => ?_
    obtain ⟨-, s', h, -⟩ := hq ts
    exact h.keeps
  fits ts f rest htail hin hok := by
    obtain ⟨f₁, between, f₂, h₁, h₂, rfl⟩ := closing_eq_ok hok
    obtain ⟨hkind, s', hlast, hnode⟩ := hq between
    obtain ⟨hmatch₁, -, hevery₁⟩ := hp.fits htail hin h₁
    obtain ⟨hmatch₂, hrest, hevery₂⟩ := hlast.fits (htail.rest hp.keeps h₁) rfl h₂
    refine ⟨⟨_, hkind, _, rfl⟩, hrest, fun u hu => ?_⟩
    cases mem_singleton.mp hu
    refine .node (hnode htail hin hok ⟨f₁, f₂, rfl, hmatch₁, hmatch₂⟩) fun c hc => ?_
    rcases mem_append.mp hc with hc | hc
    · exact hevery₁ c hc
    · exact hevery₂ c hc

theorem matches_star_nil : (star s).Matches all [] := ⟨[], rfl, fun g hg => by cases hg⟩

theorem matches_star_cons {f g : List Tree} (hf : s.Matches all f) (hg : (star s).Matches all g) :
    (star s).Matches all (f ++ g) := by
  obtain ⟨gs, rfl, hgs⟩ := hg
  refine ⟨f :: gs, rfl, fun h hh => ?_⟩
  rcases mem_cons.mp hh with rfl | hh
  · exact hf
  · exact hgs h hh

/-- A repetition, and what is known where it ends: where its question is answered with no, or behind a
round that has not advanced. -/
theorem Fits.many_until (hp : Reads all P (Asked ask) s p)
    (hstop : ∀ ⦃ts⦄, Refused ask ts → post ts)
    (hround : ∀ ⦃ts f rest⦄, ask ts = true → p ts = .ok (f, rest) → ¬ rest.length < ts.length → post rest) :
    Fits all P pre (star s) post (many ask p) where
  keeps := hp.keeps.many ask
  fits ts f rest htail _ hok := by
    refine many_induction (motive := fun ts f rest => Token.Tail all ts → (star s).Matches all f ∧
      post rest ∧ ∀ u ∈ f, u.Every P) ?_ ?_ ?_ hok htail
    · intro ts hask _
      exact ⟨matches_star_nil, hstop hask, fun u hu => by cases hu⟩
    · intro ts f rest hask hok hnot htail
      obtain ⟨hmatch, -, hevery⟩ := hp.fits htail hask hok
      exact ⟨append_nil f ▸ matches_star_cons hmatch matches_star_nil, hround hask hok hnot, hevery⟩
    · intro ts f between f' rest hask hok _ _ ih htail
      obtain ⟨hmatch, -, hevery⟩ := hp.fits htail hask hok
      obtain ⟨hmatch', hrest, hevery'⟩ := ih (htail.rest hp.keeps hok)
      refine ⟨matches_star_cons hmatch hmatch', hrest, fun u hu => ?_⟩
      rcases mem_append.mp hu with hu | hu
      · exact hevery u hu
      · exact hevery' u hu

/-- **A repetition ends where its question is answered with no**, if its rounds advance. -/
theorem Fits.many (hp : Reads all P (Asked ask) s p)
    (hround : ∀ ⦃ts⦄, ask ts = true → Advances p ts) : Fits all P pre (star s) (Refused ask) (many ask p) :=
  hp.many_until (fun _ hstop => hstop) fun _ _ _ hask hok hnot => absurd (hround hask hok).2 hnot

theorem Fits.repeated (hp : Reads all P (Asked ask) s p) :
    Reads all P pre (star s) (Rule.many ask p) :=
  hp.many_until (fun _ _ => trivial) fun _ _ _ _ _ _ => trivial

/-- Nodes put around one tree of a layout, each of which is a tree of that layout again. -/
theorem Fits.wrapping {ask : Form} (hp : Reads all P pre (.node kinds) p)
    (hask : ∀ ⦃ts kind q⦄, ask ts = some (kind, q) → kind ∈ kinds ∧
      ∃ s', Reads all P (fun us => us = ts) s' q ∧ ∀ ⦃cs⦄, (Layout.node kinds ++ s').Matches all cs →
      P kind cs) :
    Reads all P pre (.node kinds) (wrapping p ask) where
  keeps := by
    refine hp.keeps.wrapping fun {ts kind q} ha => ?_
    obtain ⟨-, s', h, -⟩ := hask ha
    exact h.keeps
  fits ts f rest htail hin hok := by
    obtain ⟨f₁, between, h₁, h₂⟩ := wrapping_eq_ok hok
    obtain ⟨hmatch, -, hevery⟩ := hp.fits htail hin h₁
    -- a round puts the tree read so far, which has the layout, into a node of the layout
    have hround : ∀ {f ts kind q g rest}, ask ts = some (kind, q) → q ts = .ok (g, rest) → Token.Tail all ts →
        (Layout.node kinds).Matches all f → (∀ u ∈ f, u.Every P) →
        (Layout.node kinds).Matches all [.node kind (f ++ g)] ∧
          ∀ u ∈ [Tree.node kind (f ++ g)], u.Every P := by
      intro f ts kind q g rest ha hq htail hf hevery
      obtain ⟨hkind, s', hform, hnode⟩ := hask ha
      obtain ⟨hg, -, hevery'⟩ := hform.fits htail rfl hq
      refine ⟨⟨kind, hkind, _, rfl⟩, fun u hu => ?_⟩
      cases mem_singleton.mp hu
      refine .node (hnode ⟨f, g, rfl, hf, hg⟩) fun c hc => ?_
      rcases mem_append.mp hc with hc | hc
      · exact hevery c hc
      · exact hevery' c hc
    have hkeeps : ∀ {ts kind q}, ask ts = some (kind, q) → Keeps q := fun ha =>
      have ⟨_, _, h, _⟩ := hask ha
      h.keeps
    refine wrappings_induction (motive := fun f ts f' rest => Token.Tail all ts →
      (Layout.node kinds).Matches all f → (∀ u ∈ f, u.Every P) →
      (Layout.node kinds).Matches all f' ∧ Anywhere rest ∧ ∀ u ∈ f', u.Every P) ?_ ?_ ?_ h₂
      (htail.rest hp.keeps h₁) hmatch hevery
    · intro f ts _ _ hf hevery
      exact ⟨hf, trivial, hevery⟩
    · intro f ts kind q g rest ha hq _ htail hf hevery
      have ⟨hmatch', hevery'⟩ := hround ha hq htail hf hevery
      exact ⟨hmatch', trivial, hevery'⟩
    · intro f ts kind q g between f' rest ha hq _ _ ih htail hf hevery
      have ⟨hmatch', hevery'⟩ := hround ha hq htail hf hevery
      exact ih (htail.rest (hkeeps ha) hq) hmatch' hevery'

/-- A chain of parts, each in a node of its own with the link behind it. -/
theorem Fits.chain {kind : NodeKind} {link : String} (hp : Reads all P Anywhere s p)
    (hnode : ∀ ⦃cs⦄, (s ++ opt (mark link)).Matches all cs → P kind cs) :
    Reads all P pre (Layout.node [kind] ++ Layout.star (.node [kind])) (chain kind p link) where
  keeps := hp.keeps.chain kind link
  fits ts f rest htail _ hok := by
    have hmatches : ∀ cs, (Layout.node [kind]).Matches all [.node kind cs] :=
      fun cs => ⟨kind, mem_singleton.mpr rfl, cs, rfl⟩
    refine chain_induction (motive := fun ts f rest => Token.Tail all ts →
      (Layout.node [kind] ++ Layout.star (.node [kind])).Matches all f ∧ Anywhere rest ∧
        ∀ u ∈ f, u.Every P) ?_ ?_ hok htail
    · intro ts f rest hok _ htail
      obtain ⟨hmatch, -, hevery⟩ := hp.fits htail trivial hok
      refine ⟨⟨[_], [], rfl, hmatches f, matches_star_nil⟩, trivial, fun u hu => ?_⟩
      cases mem_singleton.mp hu
      exact .node (hnode ⟨f, [], (append_nil f).symm, hmatch, .inr rfl⟩) hevery
    · intro ts f between f' rest hok hlink _ _ ih htail
      obtain ⟨hmatch, -, hevery⟩ := hp.fits htail trivial hok
      have htail' := htail.rest hp.keeps hok
      have hnext : Token.Tail all (between.drop 1) :=
        ⟨htail.lexical, (drop_suffix 1 between).trans htail'.suffix⟩
      obtain ⟨⟨g, h, hgh, ⟨k, hk, cs, rfl⟩, hh⟩, -, hevery'⟩ := ih hnext
      cases mem_singleton.mp hk
      obtain ⟨t, between, rfl⟩ := (ofHead_sees link).exists_cons hlink
      have htext : t.text = link := by simpa [sees] using hlink
      refine ⟨⟨[_], f', rfl, hmatches _, hgh ▸ matches_star_cons (hmatches cs) hh⟩, trivial, fun u hu => ?_⟩
      rcases mem_cons.mp hu with rfl | hu
      · refine .node (hnode ⟨f, [.token t], rfl, hmatch, .inl ⟨t, rfl, htail'.mem mem_cons_self, ?_⟩⟩) ?_
        · simp [TokenClass.holds, htext]
        · intro c hc
          rcases mem_append.mp hc with hc | hc
          · exact hevery c hc
          · exact every_map_token [t] c hc
      · exact hevery' u hu

/-! ### The types among the trees of a rule -/

/-- The types among the trees that the rule reads were read by `inner`. -/
def TypesBy (all : List Token) (inner : Rule) (pre : List Token → Prop) (p : Rule) : Prop :=
  ∀ ⦃ts f rest⦄, Token.Tail all ts → pre ts → p ts = .ok (f, rest) → ∀ ⦃k ds⦄, .node k ds ∈ f →
    IfType (fun u => ∃ us left, Token.Tail all us ∧ inner us = .ok ([u], left)) k ds

variable {inner : Rule}

theorem typesBy_inner (h : Reads all P Anywhere aType inner) : TypesBy all inner pre inner := by
  intro ts f rest htail _ hok k ds hmem _
  obtain ⟨⟨j, -, cs, rfl⟩, -⟩ := h.fits htail trivial hok
  cases mem_singleton.mp hmem
  exact ⟨ts, rest, htail, hok⟩

/-- No types stand in front. -/
theorem TypesBy.after (hq : TypesBy all inner mid q) (hp : Fits all P pre s mid p)
    (hs : s.kinds.all (!NodeKind.isType ·) = true) : TypesBy all inner pre (p ++ q) := by
  intro ts f rest htail hin hok k ds hmem htype
  obtain ⟨f₁, between, f₂, h₁, h₂, rfl⟩ := seq_eq_ok hok
  obtain ⟨hmatch, hmid, -⟩ := hp.fits htail hin h₁
  rcases mem_append.mp hmem with hmem | hmem
  · have hno := all_eq_true.mp hs k (mem_kinds hmatch hmem)
    rw [htype] at hno
    cases hno
  · exact hq (htail.rest hp.keeps h₁) hmid h₂ hmem htype

/-- No types follow. -/
theorem TypesBy.before (hp : TypesBy all inner pre p) (hfits : Fits all P pre s mid p)
    (hq : Fits all P mid s' post q) (hs : s'.kinds.all (!NodeKind.isType ·) = true) :
    TypesBy all inner pre (p ++ q) := by
  intro ts f rest htail hin hok k ds hmem htype
  obtain ⟨f₁, between, f₂, h₁, h₂, rfl⟩ := seq_eq_ok hok
  obtain ⟨-, hmid, -⟩ := hfits.fits htail hin h₁
  rcases mem_append.mp hmem with hmem | hmem
  · exact hp htail hin h₁ hmem htype
  · have hno := all_eq_true.mp hs k (mem_kinds (hq.fits (htail.rest hfits.keeps h₁) hmid h₂).1 hmem)
    rw [htype] at hno
    cases hno

end

end Rule

end SwiftOutline
