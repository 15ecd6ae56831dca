import SwiftOutline.Proofs.Grammar.Commitment
import SwiftOutline.Proofs.Grammar.Embedded

/-!
# `Annotated` — declarations around a type

A text that is a type can be put where a file has one: behind the name of a variable or of a type alias,
or in the parentheses of a function or of an enumeration case. Four declarations are written around the
type, one for each of these places, and read as the trees that they look like.
-/

namespace SwiftOutline

namespace Rule

/-! ## Items -/

theorem expect_cons (text : String) {t : Token} (h : t.text = text) (ts : List Token) :
    expect text (t :: ts) = .ok ([.token t], ts) := by
  have hsees : sees text (t :: ts) = true := beq_iff_eq.mpr h
  exact (either_of_yes hsees).trans (bump_cons t ts)

theorem expectWord_cons (what : String) {t : Token} (h : t.isWord = true) (ts : List Token) :
    expectWord what (t :: ts) = .ok ([.token t], ts) :=
  (either_of_yes h).trans (bump_cons t ts)

theorem name_cons {t : Token} (h : t.isWord = true) (ts : List Token) :
    name (t :: ts) = .ok ([.node .name [.token t]], ts) :=
  node_ok (expectWord_cons "name" h ts)

theorem functionName_cons {t : Token} (h : t.isWord = true) (ts : List Token) :
    functionName (t :: ts) = .ok ([.node .name [.token t]], ts) :=
  node_ok ((either_of_yes h).trans (bump_cons t ts))

/-- **An item that begins with its keyword** is a declaration of that kind. -/
theorem item_of_keyword {n : Nat} (keyword : Token) (kind : NodeKind) {ts rest : List Token} {f : List Tree}
    (hword : keyword.isWord = true)
    (htext : keyword.text ∈ ["let", "var", "typealias", "func", "enum", "case"])
    (hkind : declarationKind keyword.text = kind)
    (h : declarationRest (type n) (item n) kind ts = .ok (f, rest)) :
    item (n + 1) (keyword :: ts) = .ok ([.node kind (.token keyword :: f)], rest) := by
  -- none of the six words could begin anything else
  have hplain : ∀ text ∈ ["let", "var", "typealias", "func", "enum", "case"],
      modifierWords.contains text = false ∧
      declarationKeywords.contains text = true ∧ text ≠ "actor" ∧ text ≠ ";" ∧ text ≠ "#if" := by
    decide
  obtain ⟨hmodifier, hkeyword, hactor, hsemi, hif⟩ := hplain _ htext
  have hat : seesKind .atSign (keyword :: ts) = false := by
    show (keyword.kind == .atSign) = false
    rw [Token.isWord, Bool.or_eq_true, beq_iff_eq, beq_iff_eq] at hword
    rcases hword with hkind | hkind <;> rw [hkind] <;> rfl
  have hnone : modifierLength? (keyword :: ts) = none := by
    have hasked : (seesWord (keyword :: ts) && modifierWords.contains (textAt 0 (keyword :: ts))) =
      false := by
      rw [show textAt 0 (keyword :: ts) = keyword.text from rfl, hmodifier, Bool.and_false]
    simp only [modifierLength?, hasked]
    rfl
  have hstart : declarationStart? (keyword :: ts) = some (keyword :: ts) := by
    have hsees : seesDeclarationKeyword (keyword :: ts) = true := by
      have hother : sees "actor" (keyword :: ts) = false := beq_eq_false_iff_ne.mpr hactor
      rw [seesDeclarationKeyword, show seesWord (keyword :: ts) = true from hword,
        show textAt 0 (keyword :: ts) = keyword.text from rfl, hkeyword, hother]
      rfl
    rw [declarationStart?, afterAttributes?_of_not hat]
    show (if seesDeclarationKeyword (afterModifiers (keyword :: ts)) then _ else none) = _
    rw [afterModifiers_of_none hnone, if_pos hsees]
  -- there is neither an attribute nor a modifier in front
  have hintroducer : introducer (keyword :: ts) = .ok ([.token keyword], ts) :=
    seq_ok (seq_ok (optional_of_no hat) (optional_of_no (by rw [hnone]; rfl))) (bump_cons keyword ts)
  have hdeclaration : itemBody (type n) (item n) (keyword :: ts) =
      declaration (type n) (item n) (declarationKind keyword.text) (keyword :: ts) := by
    have hsemi : sees ";" (keyword :: ts) = false := beq_eq_false_iff_ne.mpr hsemi
    have hif : sees "#if" (keyword :: ts) = false := beq_eq_false_iff_ne.mpr hif
    unfold itemBody Rule.either
    simp only [hsemi, hif, hstart, Bool.false_eq_true, if_false]
    rfl
  rw [item, hdeclaration, hkind, declaration_of_introducer hintroducer, h]
  rfl

end Rule

/-- A file that is one item. -/
theorem parseSource_of_item {text : String} {d : Tree} (htokens : tokenize text = .ok d.tokens)
    (h : Rule.item nestingLimit d.tokens = .ok ([d], [])) (hne : d.tokens ≠ []) :
    parseSource text = .ok (.node .sourceFile [d]) := by
  obtain ⟨t, us, hts⟩ := List.exists_cons_of_ne_nil hne
  rw [hts] at htokens h
  have hitems : Rule.sourceItems (t :: us) = .ok ([d], []) :=
    Rule.many_round_ok rfl h (Nat.succ_pos _) (Rule.many_of_not rfl)
  rw [parseSource, parseWith, htokens]
  simp only [hitems]

/-- **A type with a closing parenthesis behind it**, on a line of its own. -/
theorem TypeAt.tokens_closed {levels pos : Nat} {cs after : List Char} {u : Tree} {more : List Token}
    (h : TypeAt levels pos cs u) (hmore : tokensFrom (pos + Text.byteSize cs + 1 + 1) after = .ok more) :
    ∃ closing : Token, (closing.text = ")" ∧ closing.kind = .punct) ∧
      tokensFrom pos (cs ++ '\n' :: ')' :: after) = .ok (u.tokens ++ closing :: more) := by
  obtain ⟨front, -, hjoined⟩ := tokensFrom_joined h.tokens
  refine ⟨closingToken (String.ofList front ++ "") (pos + Text.byteSize cs + 1), ⟨rfl, rfl⟩, ?_⟩
  rw [hjoined (')' :: after), show tokensFrom _ (')' :: after) = _ from tokensFrom_paren false hmore]
  rfl

/-! ## Declarations -/

/-- The tree of `let x: T`. -/
def variableTree (type : Tree) : Tree :=
  .node .variableDecl
    [.token ⟨.keyword, "", "let", 0, false⟩,
     .node .patternBinding
      [.node .pattern [.token ⟨.identifier, " ", "x", 4, false⟩],
       .node .typeClause [.token ⟨.punct, "", ":", 5, false⟩, type]]]

/-- The tree of `typealias X = T`. -/
def typealiasTree (type : Tree) : Tree :=
  .node .typealiasDecl
    [.token ⟨.keyword, "", "typealias", 0, false⟩,
     .node .name [.token ⟨.identifier, " ", "X", 10, false⟩],
     .node .typeInitializer [.token ⟨.punct, " ", "=", 12, false⟩, type]]

/-- The tree of `_ p: T` in the parentheses of a function. -/
def parameterTree (type : Tree) : Tree :=
  .node .functionParameter
    [.token ⟨.identifier, "", "_", 7, false⟩, .token ⟨.identifier, " ", "p", 9, false⟩,
     .token ⟨.punct, "", ":", 10, false⟩, type]

/-- The tree of `func f(_ p: T)`. -/
def functionTree (type : Tree) (closing : Token) : Tree :=
  .node .functionDecl
    [.token ⟨.keyword, "", "func", 0, false⟩,
     .node .name [.token ⟨.identifier, " ", "f", 5, false⟩],
     .node .functionSignature
      [.node .parameterClause [.token (parenToken true 6), parameterTree type, .token closing]]]

/-- The tree of `case c(T)` in an enumeration. -/
def caseTree (type : Tree) (closing : Token) : Tree :=
  .node .enumCaseDecl
    [.token ⟨.keyword, " ", "case", 9, false⟩,
     .node .enumCaseElement
      [.node .name [.token ⟨.identifier, " ", "c", 14, false⟩],
       .node .enumCaseParameterClause
        [.token (parenToken true 15), .node .enumCaseParameter [type], .token closing]]]

/-- The tree of an enumeration with one case. -/
def enumTree (type : Tree) (closing brace : Token) : Tree :=
  .node .enumDecl
    [.token ⟨.keyword, "", "enum", 0, false⟩,
     .node .name [.token ⟨.identifier, " ", "E", 5, false⟩],
     .node .memberBlock
      [.token ⟨.punct, " ", "\x7b", 7, false⟩, caseTree type closing, .token brace]]

section

variable (type : Tree) (closing brace : Token)

theorem tokens_variableTree : (variableTree type).tokens =
    ⟨.keyword, "", "let", 0, false⟩ :: ⟨.identifier, " ", "x", 4, false⟩ ::
      ⟨.punct, "", ":", 5, false⟩ :: type.tokens := by
  simp [variableTree]

theorem tokens_typealiasTree : (typealiasTree type).tokens =
    ⟨.keyword, "", "typealias", 0, false⟩ :: ⟨.identifier, " ", "X", 10, false⟩ ::
      ⟨.punct, " ", "=", 12, false⟩ ::
      type.tokens := by
  simp [typealiasTree]

theorem tokens_functionTree : (functionTree type closing).tokens =
    ⟨.keyword, "", "func", 0, false⟩ :: ⟨.identifier, " ", "f", 5, false⟩ :: parenToken true 6 ::
      ⟨.identifier, "", "_", 7, false⟩ :: ⟨.identifier, " ", "p", 9, false⟩ :: ⟨.punct, "", ":", 10, false⟩ ::
        (type.tokens ++ [closing]) := by
  simp [functionTree, parameterTree]

theorem tokens_enumTree : (enumTree type closing brace).tokens =
    ⟨.keyword, "", "enum", 0, false⟩ :: ⟨.identifier, " ", "E", 5, false⟩ ::
      ⟨.punct, " ", "\x7b", 7, false⟩ ::
      ⟨.keyword, " ", "case", 9, false⟩ :: ⟨.identifier, " ", "c", 14, false⟩ :: parenToken true 15 ::
        (type.tokens ++ [closing, brace]) := by
  simp [enumTree, caseTree]

end

/-! ## Readings -/

namespace Rule

variable {n : Nat} {v : Tree}

/-- The declaration of a variable is read from its tokens. -/
theorem item_variableTree (h : type n v.tokens = .ok ([v], [])) :
    item (n + 1) (variableTree v).tokens = .ok ([variableTree v], []) := by
  have hclause : optional (sees ":") (node .typeClause (bump ++ type n))
      (⟨.punct, "", ":", 5, false⟩ :: v.tokens) =
      .ok (_, []) := (either_of_yes rfl).trans (node_ok (seq_ok (bump_cons _ _) h))
  have hpattern : node .pattern (either (sees "(") group (expectWord "pattern"))
      (⟨.identifier, " ", "x", 4, false⟩ :: ⟨.punct, "", ":", 5, false⟩ :: v.tokens) = .ok (_, _) :=
    node_ok ((either_of_no rfl).trans (expectWord_cons "pattern" rfl _))
  have hbinding : patternBinding (type n) _ = .ok (_, []) :=
    node_ok (seq_ok (seq_ok (seq_ok hpattern hclause) (optional_of_no rfl)) (optional_of_no rfl))
  have hrest : variableRest (type n) _ = .ok (_, []) := seq_ok hbinding (many_of_not rfl)
  rw [tokens_variableTree]
  exact item_of_keyword ⟨.keyword, "", "let", 0, false⟩ .variableDecl rfl (by decide) rfl hrest

/-- The declaration of a type alias is read from its tokens. -/
theorem item_typealiasTree (h : type n v.tokens = .ok ([v], [])) :
    item (n + 1) (typealiasTree v).tokens = .ok ([typealiasTree v], []) := by
  have htarget : typeInitializer (type n) (⟨.punct, " ", "=", 12, false⟩ :: v.tokens) = .ok (_, []) :=
    node_ok (seq_ok (expect_cons "=" rfl _) h)
  have hrest : typealiasRest (type n) (⟨.identifier, " ", "X", 10, false⟩ :: _) = .ok (_, []) :=
    seq_ok (seq_ok (seq_ok (name_cons rfl _) (optional_of_no rfl)) htarget) (optional_of_no rfl)
  rw [tokens_typealiasTree]
  exact item_of_keyword ⟨.keyword, "", "typealias", 0, false⟩ .typealiasDecl rfl (by decide) rfl hrest

section

variable {closing : Token} (hclosing : closing.text = ")" ∧ closing.kind = .punct) (hlex :
  ∀ t ∈ v.tokens, t.Lexical)
include hclosing hlex

/-- The declaration of a function is read from its tokens. -/
theorem item_functionTree (h : type n v.tokens = .ok ([v], [])) :
    item (n + 1) (functionTree v closing).tokens = .ok ([functionTree v closing], []) := by
  -- a closing parenthesis goes on with no type, so the type ends where it did
  have hread := (stops_of_closing hclosing []).type hlex h
  have hparameter : functionParameter (type n)
      (⟨.identifier, "", "_", 7, false⟩ :: ⟨.identifier, " ", "p", 9, false⟩ ::
      ⟨.punct, "", ":", 10, false⟩ :: (v.tokens ++ [closing])) = .ok (_, [closing]) :=
    node_ok (seq_ok (seq_ok
      (seq_ok (seq_ok (seq_ok (optional_of_no rfl) (expectWord_cons "parameter name" rfl _))
      ((either_of_yes rfl).trans (bump_cons _ _))) (expect_cons ":" rfl _)) hread)
        (elementRest_closing hclosing))
  have hlist : elements (functionParameter (type n)) _ = .ok (_, [closing]) :=
    elements_single hclosing rfl rfl hparameter (by simp)
  have hclause : parameterClause (type n) (parenToken true 6 :: _) = .ok (_, []) :=
    node_ok (seq_ok (seq_ok (expect_cons "(" rfl _) hlist) (bump_cons closing []))
  have hsignature : functionSignature (type n) _ = .ok (_, []) :=
    node_ok (seq_ok (seq_ok hclause (optional_of_no rfl)) (optional_of_no rfl))
  have hrest : functionRest (type n) (item n) (⟨.identifier, " ", "f", 5, false⟩ :: _) = .ok (_, []) :=
    seq_ok (seq_ok (functionName_cons rfl _)
      (seq_ok (seq_ok (optional_of_no rfl) hsignature) (optional_of_no rfl)))
      (optional_of_no rfl)
  rw [tokens_functionTree]
  exact item_of_keyword ⟨.keyword, "", "func", 0, false⟩ .functionDecl rfl (by decide) rfl hrest

/-- The declaration of a case is read from its tokens, in front of a brace. -/
theorem item_caseTree (h : type n v.tokens = .ok ([v], [])) (start : Nat) :
    item (n + 1) (⟨.keyword, " ", "case", 9, false⟩ :: ⟨.identifier, " ", "c", 14,
      false⟩ :: parenToken true 15 ::
        (v.tokens ++ [closing, ⟨.punct, " ", "\x7d", start, false⟩])) =
      .ok ([caseTree v closing], [⟨.punct, " ", "\x7d", start, false⟩]) := by
  -- an entry may begin with a label, and a type that is read alone never looks like one
  have hmore := stops_of_closing hclosing [⟨.punct, " ", "\x7d", start, false⟩]
  have hlist := elements_of_inside hclosing (consumes_type n) (startsInside_before hlex h hmore)
      (hmore.type hlex h)
    .enumCaseParameter
  have hclause : optional (sees "(") (node .enumCaseParameterClause
      (bump ++ elements (tupleElement (type n) .enumCaseParameter) ++ bump)) (parenToken true 15 :: _) =
        .ok (_, _) :=
    (either_of_yes rfl).trans (node_ok (seq_ok (seq_ok (bump_cons _ _) hlist) (bump_cons _ _)))
  have helement : enumCaseElement (type n) (⟨.identifier, " ", "c", 14, false⟩ :: _) = .ok (_, _) :=
    node_ok (seq_ok (seq_ok (name_cons rfl _) hclause) (optional_of_no rfl))
  have hrest : enumCaseRest (type n) _ = .ok (_, _) := seq_ok helement (many_of_not rfl)
  exact item_of_keyword ⟨.keyword, " ", "case", 9, false⟩ .enumCaseDecl rfl (by decide) rfl hrest

/-- The declaration of an enumeration with one case is read from its tokens. -/
theorem item_enumTree (h : type n v.tokens = .ok ([v], [])) (start : Nat) :
    item (n + 2) (enumTree v closing ⟨.punct, " ", "\x7d", start, false⟩).tokens =
      .ok ([enumTree v closing ⟨.punct, " ", "\x7d", start, false⟩], []) := by
  have hround : require (fun ts => !seesEnd ts) "'\x7d'" (item (n + 1)) _ = .ok (_, _) :=
    (either_of_yes rfl).trans (item_caseTree hclosing hlex h start)
  have hmembers : many (fun ts => !sees "\x7d" ts)
      (require (fun ts => !seesEnd ts) "'\x7d'" (item (n + 1))) _ =
      .ok (_, [⟨.punct, " ", "\x7d", start, false⟩]) := many_round_ok rfl hround (by simp) (many_of_not rfl)
  have hblock : itemBlock (item (n + 1)) .memberBlock (⟨.punct, " ", "\x7b", 7, false⟩ :: _) = .ok (_, []) :=
    node_ok (seq_ok (seq_ok (expect_cons "\x7b" rfl _) hmembers) (bump_cons _ []))
  have hcontainer : containerRest (type (n + 1)) (item (n + 1)) _ = .ok (_, []) :=
    seq_ok (seq_ok (seq_ok (optional_of_no rfl) (optional_of_no rfl)) (optional_of_no rfl)) hblock
  have hrest : (name ++ containerRest (type (n + 1)) (item (n + 1)) : Rule)
      (⟨.identifier, " ", "E", 5, false⟩ :: _) =
      .ok (_, []) := seq_ok (name_cons rfl _) hcontainer
  rw [tokens_enumTree]
  exact item_of_keyword ⟨.keyword, "", "enum", 0, false⟩ .enumDecl rfl (by decide) rfl hrest

end

end Rule

/-! ## Files -/

namespace SoleType

variable {text : String} {u : Tree}

/-- **A text that is one type, as the type of a variable.** -/
theorem parseSource_variable (h : SoleType (nestingLimit - 1) text u) : ∃ g, Token.Faithful g u.tokens ∧
    parseSource ("let x: " ++ text) = .ok (.node .sourceFile [variableTree (u.relabel g)]) := by
  obtain ⟨g, hg, htype⟩ := h.typeAt_space 6
  refine ⟨g, hg, parseSource_of_item ?_ (Rule.item_variableTree htype.read) (by simp [variableTree])⟩
  have hcolon := tokensFrom_fixed 5 [] ':' [] rfl rfl htype.tokens
  have hpattern := tokensFrom_fixed 3 [' '] 'x' [] rfl rfl hcolon
  have hkeyword := tokensFrom_fixed 0 [] 'l' ['e', 't'] rfl rfl hpattern
  rw [tokenize, String.toList_append, tokens_variableTree]
  exact hkeyword

/-- **A text that is one type, behind the name of a type alias.** -/
theorem parseSource_typealias (h : SoleType (nestingLimit - 1) text u) : ∃ g, Token.Faithful g u.tokens ∧
    parseSource ("typealias X = " ++ text) = .ok (.node .sourceFile [typealiasTree (u.relabel g)]) := by
  obtain ⟨g, hg, htype⟩ := h.typeAt_space 13
  refine ⟨g, hg, parseSource_of_item ?_ (Rule.item_typealiasTree htype.read) (by simp [typealiasTree])⟩
  have hequal := tokensFrom_fixed 11 [' '] '=' [] rfl rfl htype.tokens
  have hname := tokensFrom_fixed 9 [' '] 'X' [] rfl rfl hequal
  have hkeyword := tokensFrom_fixed 0 [] 't' ['y', 'p', 'e', 'a', 'l', 'i', 'a', 's'] rfl rfl hname
  rw [tokenize, String.toList_append, tokens_typealiasTree]
  exact hkeyword

/-- **A text that is one type, as the only parameter of a function.** -/
theorem parseSource_function (h : SoleType (nestingLimit - 1) text u) :
    ∃ g closing, Token.Faithful g u.tokens ∧
    parseSource ("func f(_ p: " ++ text ++ "\n)") = .ok
      (.node .sourceFile [functionTree (u.relabel g) closing]) := by
  obtain ⟨g, hg, htype⟩ := h.typeAt_space 11
  obtain ⟨closing, hclosing, hclosed⟩ := htype.tokens_closed (tokensFrom_nil _)
  refine ⟨g, closing, hg, parseSource_of_item ?_ (Rule.item_functionTree hclosing htype.lexical htype.read)
    (by simp [functionTree])⟩
  have hcolon := tokensFrom_fixed 10 [] ':' [] rfl rfl hclosed
  have hsecond := tokensFrom_fixed 8 [' '] 'p' [] rfl rfl hcolon
  have hfirst := tokensFrom_fixed 7 [] '_' [] rfl rfl hsecond
  have hname := tokensFrom_fixed 4 [' '] 'f' [] rfl rfl (tokensFrom_paren true hfirst)
  have hkeyword := tokensFrom_fixed 0 [] 'f' ['u', 'n', 'c'] rfl rfl hname
  rw [tokenize, String.toList_append, String.toList_append, List.append_assoc, tokens_functionTree]
  exact hkeyword

/-- **A text that is one type, as the only value of an enumeration case.** -/
theorem parseSource_enum (h : SoleType (nestingLimit - 2) text u) :
    ∃ g closing brace, Token.Faithful g u.tokens ∧
    parseSource ("enum E \x7b case c(" ++ text ++ "\n) \x7d") =
      .ok (.node .sourceFile [enumTree (u.relabel g) closing brace]) := by
  have htype := h.typeAt 16
  have hend (pos : Nat) : tokensFrom pos [' ', '\x7d'] = .ok [⟨.punct, " ", "\x7d", pos + 1, false⟩] :=
    tokensFrom_fixed pos [' '] '\x7d' [] rfl rfl (tokensFrom_nil _)
  obtain ⟨closing, hclosing, hclosed⟩ := htype.tokens_closed (hend _)
  refine ⟨_, closing, _, (Token.enclosing_shiftUp 16 u.tokens).faithful,
    parseSource_of_item ?_
      (Rule.item_enumTree hclosing htype.lexical htype.read (16 + Text.byteSize text.toList + 1 + 1 + 1))
      (by simp [enumTree])⟩
  have hcase := tokensFrom_fixed 13 [' '] 'c' [] rfl rfl (tokensFrom_paren true hclosed)
  have hkeyword := tokensFrom_fixed 8 [' '] 'c' ['a', 's', 'e'] rfl rfl hcase
  have hbrace := tokensFrom_fixed 6 [' '] '\x7b' [] rfl rfl hkeyword
  have hname := tokensFrom_fixed 4 [' '] 'E' [] rfl rfl hbrace
  have hfirst := tokensFrom_fixed 0 [] 'e' ['n', 'u', 'm'] rfl rfl hname
  rw [tokenize, String.toList_append, String.toList_append, List.append_assoc, tokens_enumTree]
  exact hfirst

end SoleType

end SwiftOutline
