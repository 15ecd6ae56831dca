import SwiftOutline.Proofs.Grammar.Lead
import SwiftOutline.Proofs.Grammar.SchemaRules
import SwiftOutline.Proofs.Tree.Moved

/-!
# `Excerpt` — the text of a node read on its own

The text of a function type is a type, and the text of a declaration is a source file with nothing else in
it. In both cases the tree of the text is the node itself, with its tokens moved to the front.
-/

namespace SwiftOutline

open Rule

/-! ## Tokens -/

variable {source : String} {tokens ts : List Token} {t : Token} {u : Tree} {cs : List Tree}

/-- Tokens begin one behind the other. -/
theorem pairwise_start_of_tokenize
    (h : tokenize source = .ok tokens) : tokens.Pairwise fun a b => a.start < b.start := by
  have hlaid := laid_of_tokensFrom h
  refine hlaid.pairwise.imp_of_mem ?_
  intro a b ha _ hab
  exact Nat.lt_of_lt_of_le (hlaid.token_slice ha).2.1 hab

namespace Token

/-- The token if the text began with `first`. -/
def regap (first u : Token) : Token := if u = first then u.leading else u

/-- The token in the excerpt that begins with `first`. -/
def excerpt (first u : Token) : Token := (regap first u).rebase first.start

theorem regap_self (first : Token) : regap first first = first.leading := if_pos rfl

variable {first : Token} {ts : List Token}

theorem regap_of_ne {u : Token} (h : u ≠ first) : regap first u = u := if_neg h

theorem regap_of_mem {u : Token} (h : first ∉ ts) (hu : u ∈ ts) : regap first u = u := by
  refine regap_of_ne ?_
  rintro rfl
  exact h hu

theorem regap_changes (h : first ∉ ts) : Regap (regap first) first ts where
  kind := by rw [regap_self]; rfl
  text := by rw [regap_self]; rfl
  fixed _ hu := regap_of_mem h hu

/-- Only the gap before the first token is changed. -/
theorem regap_cases (first u : Token) : regap first u = u ∨ regap first u = u.leading := by
  by_cases h : u = first
  · subst h
    exact .inr (regap_self u)
  · exact .inl (regap_of_ne h)

theorem kind_excerpt (first u : Token) : (excerpt first u).kind = u.kind := by
  show (regap first u).kind = u.kind
  rcases regap_cases first u with h | h
  · rw [h]
  · rw [h]; rfl

theorem text_excerpt (first u : Token) : (excerpt first u).text = u.text := by
  show (regap first u).text = u.text
  rcases regap_cases first u with h | h
  · rw [h]
  · rw [h]; rfl

theorem start_excerpt (first u : Token) : (excerpt first u).start = u.start - first.start := by
  show (regap first u).start - first.start = u.start - first.start
  rcases regap_cases first u with h | h
  · rw [h]
  · rw [h]; rfl

/-- An excerpt keeps all texts, and the gaps behind its first token. -/
theorem faithful_excerpt (h : first ∉ ts) : Faithful (excerpt first) (first :: ts) where
  kind u _ := kind_excerpt first u
  text u _ := text_excerpt first u
  lead u hu := by rw [excerpt, regap_of_mem h hu]; rfl
  newlineBefore u hu := by rw [excerpt, regap_of_mem h hu]; rfl

theorem unseen_rebase (base : Nat) : Unseen (rebase base) where
  kind _ := rfl
  text _ := rfl
  newlineBefore _ := rfl
  isAdjacent _ := rfl

end Token

/-- No token comes twice. -/
theorem not_mem_of_isInfix (h : tokenize source = .ok tokens) (hin : t :: ts <:+: tokens) : t ∉ ts := by
  have hsorted := (pairwise_start_of_tokenize h).sublist hin.sublist
  intro ht
  exact Nat.lt_irrefl _ (List.rel_of_pairwise_cons hsorted ht)

/-- A part of a source has its own tokens, as they are in an excerpt. -/
theorem tokenize_excerpt (h : tokenize source = .ok tokens) (hin : t :: ts <:+: tokens) :
    tokenize (Token.joined (t :: ts)) = .ok ((t.leading :: ts).map (Token.rebase t.start)) := by
  obtain ⟨before, after, rfl⟩ := hin
  rw [List.append_assoc] at h
  exact tokenize_joined h

/-! ## Trees -/

/-- The tree was read from a part of the source. -/
structure Tree.IsPart (source : String) (t : Tree) : Prop where
  every : t.Every Original
  tokens : ∃ tokens, tokenize source = .ok tokens ∧ t.tokens <:+: tokens

theorem Tree.Every.contains {P : NodeKind → List Tree → Prop} {t : Tree} (h : t.Every P)
    (hu : t.Contains u) : u.Every P := by
  induction hu with
  | self => exact h
  | child _ hc ih => exact ih.child hc

theorem Tree.IsPart.contains {t : Tree} (h : t.IsPart source) (hu : t.Contains u) : u.IsPart source := by
  obtain ⟨tokens, htokens, hin⟩ := h.tokens
  exact ⟨h.every.contains hu, tokens, htokens, hu.tokens_isInfix.trans hin⟩

theorem isPart_of_parseType {tree : Tree} (h : parseType source = .ok tree) : tree.IsPart source where
  every := (traced_of_parseType h).imp fun _ _ htraced => htraced.original (Nat.le_refl _)
  tokens := ⟨_, (tokens_of_parseWith lawful_soleType rest_of_soleType h).1, List.infix_rfl⟩

theorem isPart_of_parseSource {tree : Tree} (h : parseSource source = .ok tree) : tree.IsPart source where
  every := (traced_of_parseSource h).imp fun _ _ htraced => htraced.original (Nat.sub_le ..)
  tokens := ⟨_, (tokens_of_parseWith lawful_sourceItems rest_of_sourceItems h).1, List.infix_rfl⟩

theorem tokens_ne_nil_of_functionType (h : Tree.Original .functionType cs) :
    (Tree.node .functionType cs).tokens ≠ [] := by
  obtain ⟨n, -, ts, rest, -, hsees, hok⟩ := h.functionType rfl
  have hlt := consumes_parenType (lawful_type n) ((Lookahead.ofHead_sees "(").ne_nil hsees) hok
  have hkeeps := (lawful_parenType (lawful_type n)).keeps hok
  intro hnil
  rw [Tree.forestTokens_singleton, hnil, List.nil_append] at hkeeps
  rw [hkeeps] at hlt
  exact Nat.lt_irrefl _ hlt

theorem tokens_ne_nil_of_declaration {kind : NodeKind} (hkind : kind.isDecl = true)
    (h : Tree.Original kind cs) : (Tree.node kind cs).tokens ≠ [] := by
  obtain ⟨n, -, ts, rest, -, hok⟩ := h.declaration hkind
  have hkeeps := (lawful_item n).keeps hok
  intro hnil
  rw [Tree.forestTokens_singleton, hnil, List.nil_append] at hkeeps
  subst hkeeps
  by_cases hne : rest = []
  · -- at the end of the input an item is a statement
    subst hne
    cases n with
    | zero => cases hok
    | succ n =>
      have hbody : itemBody (type n) (item n) [] = .ok ([.node kind cs], []) := hok
      rw [itemBody_statement rfl rfl declarationStart?_nil] at hbody
      obtain ⟨cs', hcs⟩ := statement_eq_ok hbody
      cases hcs
      cases hkind
  · exact Nat.lt_irrefl _ (consumes_item n hne hok)

/-- A rule that reads the tokens of a part as one tree reads its text as the excerpt of this tree. -/
theorem parseWith_text {root : NodeKind} {rule : Rule}
    (hrule : Rule.Lawful rule) (hu : u.IsPart source) (htokens : u.tokens = t :: ts)
    (hok : rule (Token.regap t t :: ts) = .ok ([u.relabel (Token.regap t)], [])) :
    parseWith root rule u.text = .ok (.node root [u.relabel (Token.excerpt t)]) := by
  obtain ⟨tokens, htokenize, hin⟩ := hu.tokens
  rw [htokens] at hin
  have hnatural := hrule.natural (Token.unseen_rebase t.start) (Token.regap t t :: ts)
  rw [hok, relabelOutcome_ok, Token.regap_self, List.map_singleton, Tree.relabel_relabel,
    List.map_nil] at hnatural
  unfold parseWith
  rw [Tree.text, htokens, tokenize_excerpt htokenize hin]
  simp only [hnatural]
  rfl

/-- A part begins with its first token and has it only there. -/
theorem Tree.IsPart.regap (hu : u.IsPart source) (htokens : u.tokens = t :: ts) :
    Token.Regap (Token.regap t) t ts := by
  obtain ⟨tokens, htokenize, hin⟩ := hu.tokens
  rw [htokens] at hin
  exact Token.regap_changes (not_mem_of_isInfix htokenize hin)

/-- **The text of a function type is that type.** -/
theorem parseType_text (hu : (Tree.node .functionType cs).IsPart source)
    (htokens : (Tree.node .functionType cs).tokens = t :: ts) :
    parseType (Tree.node .functionType cs).text =
      .ok (.node .typeRoot [(Tree.node .functionType cs).relabel (Token.excerpt t)]) := by
  exact parseWith_text lawful_soleType hu htokens
    (soleType_of_original hu.every.here htokens (hu.regap htokens))

/-- **The text of a declaration is a source file with that declaration.** -/
theorem parseSource_text {kind : NodeKind} (hu : (Tree.node kind cs).IsPart source)
    (hkind : kind.isDecl = true) (htokens : (Tree.node kind cs).tokens = t :: ts) :
    parseSource (Tree.node kind cs).text =
      .ok (.node .sourceFile [(Tree.node kind cs).relabel (Token.excerpt t)]) := by
  exact parseWith_text lawful_sourceItems hu htokens
    (sourceItems_of_original hkind hu.every.here htokens (hu.regap htokens))

end SwiftOutline
