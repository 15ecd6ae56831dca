import SwiftOutline.Proofs.Grammar.SchemaCounts
import SwiftOutline.Proofs.Grammar.TypeParts

/-!
# `Commitment` — what a search has found is read

Twice the grammar looks past tokens before it reads them: for the keyword of a declaration behind
attributes and modifiers, and for the arrow of a function type behind effects. Once the search has found
what it looks for, the tokens in between are read without a fault, and the reading stops where the search
did. So the token that is read next, without another look at it, is the one that was found.
-/

namespace SwiftOutline

open Lookahead List

namespace Rule

/-! ## Attributes -/

theorem exists_nameParts (ts : List Token) :
    ∃ f, many (fun ts => seesAdjacent "." ts && isWordAt 1 ts) (bumps 2) ts =
      .ok (f, afterDottedName ts) := by
  fun_induction afterDottedName ts with
  | case1 dot word rest hdot ih =>
    obtain ⟨f, hf⟩ := ih
    rw [Bool.and_right_comm] at hdot
    exact ⟨_, many_round_ok hdot rfl (Nat.lt_add_of_pos_right Nat.zero_lt_two) hf⟩
  | case2 dot word rest hdot =>
    rw [Bool.and_right_comm] at hdot
    exact ⟨[], many_of_not (Bool.eq_false_iff.mpr hdot)⟩
  | case3 ts hshort =>
    refine ⟨[], many_of_not ?_⟩
    rcases ts with _ | ⟨dot, _ | ⟨word, rest⟩⟩
    · rfl
    · exact Bool.and_false _
    · exact absurd rfl (hshort dot word rest)

variable {ts rest : List Token} {t : Token}

theorem exists_declAttribute (h : afterAttribute? ts = some rest) :
    ∃ f, declAttribute ts = .ok (f, rest) := by
  obtain ⟨sign, word, tail, rfl, hword, hrest⟩ := afterAttribute?_eq_some h
  have hname : expectWord "attribute name" (word :: tail) = .ok ([.token word], tail) := either_of_yes hword
  obtain ⟨parts, hparts⟩ := exists_nameParts tail
  have hfront := seq_ok (seq_ok (bump_cons sign (word :: tail)) hname) hparts
  rcases hrest with ⟨hadjacent, run, hrun⟩ | ⟨hadjacent, rfl⟩
  · have harguments : optional (seesAdjacent "(") (node .attributeArguments group) (afterDottedName tail) =
        _ :=
      (either_of_yes hadjacent).trans (node_ok (group_ok hrun))
    exact ⟨_, node_ok (seq_ok hfront harguments)⟩
  · exact ⟨_, node_ok (seq_ok hfront (optional_of_no hadjacent))⟩

/-- **Attributes that are skipped are read.** -/
theorem exists_attributes (h : afterAttributes? ts = some rest) :
    ∃ f, many (seesKind .atSign) declAttribute ts = .ok (f, rest) := by
  induction hn : ts.length using Nat.strongRecOn generalizing ts with
  | ind n ih =>
    cases hs : seesKind .atSign ts with
    | false =>
      rw [afterAttributes?_of_not hs] at h
      cases h
      exact ⟨[], many_of_not hs⟩
    | true =>
      cases ha : afterAttribute? ts with
      | none =>
        rw [afterAttributes?_of_none hs ha] at h
        cases h
      | some mid =>
        rw [afterAttributes?_of_some hs ha] at h
        have hlt := length_lt_of_afterAttribute? ha
        obtain ⟨f, hf⟩ := exists_declAttribute ha
        obtain ⟨g, hg⟩ := ih mid.length (hn ▸ hlt) h rfl
        exact ⟨f ++ g, many_round_ok hs hf hlt hg⟩

/-- A list that can be read can be read where it is asked for. -/
theorem exists_optional_list {ask : Lookahead} {p : Rule} {f : List Tree}
    (h : many ask p ts = .ok (f, rest)) (kind : NodeKind) :
    ∃ g, optional ask (node kind (many ask p)) ts = .ok (g, rest) := by
  cases hask : ask ts with
  | true => exact ⟨_, (either_of_yes hask).trans (node_ok h)⟩
  | false =>
    rw [many_of_not hask] at h
    cases h
    exact ⟨[], optional_of_no hask⟩

/-! ## Modifiers -/

theorem declModifier_of_some {n : Nat} (h : modifierLength? ts = some n) :
    declModifier ts = .ok ([.node .declModifier ((ts.take n).map .token)], ts.drop n) := by
  refine node_ok ?_
  rw [h]
  rfl

/-- The modifiers up to where so many tokens are left. Whatever stands before this place is a modifier,
of one token if it does not look like one. -/
def modifiersUpTo (left : Nat) : Rule :=
  optional (fun ts => decide (left < ts.length))
    (node .modifierList (many (fun ts => decide (left < ts.length)) declModifier))

/-- **Modifiers that are skipped are read**, whether reading goes on as long as there are any or up to
the place where the search has stopped. -/
theorem exists_modifiers (ts : List Token) :
    ∃ f, many isModifier declModifier ts = .ok (f, afterModifiers ts) ∧
      many (fun us => decide ((afterModifiers ts).length < us.length)) declModifier ts =
        .ok (f, afterModifiers ts) := by
  induction hn : ts.length using Nat.strongRecOn generalizing ts with
  | ind n ih =>
    cases h : modifierLength? ts with
    | none =>
      have hstop : isModifier ts = false := by
        rw [isModifier, h]
        rfl
      rw [afterModifiers_of_none h]
      exact ⟨[], many_of_not hstop, many_of_not (decide_eq_false (Nat.lt_irrefl _))⟩
    | some k =>
      have hpos := pos_of_modifierLength? h
      have hlt : (ts.drop k).length < ts.length := by
        rw [length_drop]
        omega
      obtain ⟨f, hf, hup⟩ := ih (ts.drop k).length (hn ▸ hlt) (ts.drop k) rfl
      have hgo : isModifier ts = true := by
        rw [isModifier, h]
        rfl
      have hle := (afterModifiers_isSuffix (ts.drop k)).length_le
      rw [afterModifiers_of_some h]
      exact ⟨_, many_round_ok hgo (declModifier_of_some h) hlt hf,
        many_round_ok (decide_eq_true (Nat.lt_of_le_of_lt hle hlt)) (declModifier_of_some h) hlt hup⟩

theorem exists_modifierList (ts : List Token) :
    ∃ f, optional isModifier modifierList ts = .ok (f, afterModifiers ts) ∧
      modifiersUpTo (afterModifiers ts).length ts = .ok (f, afterModifiers ts) := by
  obtain ⟨f, hmany, hup⟩ := exists_modifiers ts
  cases hask : isModifier ts with
  | true =>
    have hlt := length_lt_of_many keeps_declModifier (fun _ _ _ hyes hok =>
        length_lt_of_declModifier hyes hok) hask hmany
    refine ⟨[.node .modifierList f], (either_of_yes hask).trans (node_ok hmany), ?_⟩
    rw [modifiersUpTo, Rule.optional, either_of_yes (decide_eq_true hlt)]
    exact node_ok hup
  | false =>
    have hsame : afterModifiers ts = ts :=
      afterModifiers_of_none (Option.not_isSome_iff_eq_none.mp (Bool.eq_false_iff.mp hask))
    rw [hsame]
    exact ⟨[], optional_of_no hask, optional_of_no (decide_eq_false (Nat.lt_irrefl _))⟩

/-! ## Declarations -/

/-- **A declaration, given how it is introduced**, is what its kind asks for behind the keyword. -/
theorem declaration_of_introducer {type item : Rule} {kind : NodeKind} {tail : List Token} {f : List Tree}
    (h : introducer ts = .ok (f, tail)) :
    declaration type item kind ts =
      (declarationRest type item kind tail).map fun out => ([.node kind (f ++ out.1)], out.2) := by
  cases hrest : declarationRest type item kind tail with
  | error e =>
    rw [declaration, node, seq_error_right h hrest]
    rfl
  | ok out =>
    obtain ⟨cs, rest⟩ := out
    exact node_ok (seq_ok h hrest)

/-- A declaration begins with an attribute or a word. -/
theorem head_of_declarationStart? {start : List Token} (h : declarationStart? (t :: ts) = some start) :
    t.kind = .atSign ∨ t.isWord = true := by
  by_cases hat : t.kind = .atSign
  · exact .inl hat
  right
  obtain ⟨mid, hmid, hstart, hkeyword⟩ := declarationStart?_eq_some h
  have hnone : seesKind .atSign (t :: ts) = false := beq_eq_false_iff_ne.mpr hat
  rw [afterAttributes?_of_not hnone] at hmid
  cases hmid
  cases hlength : modifierLength? (t :: ts) with
  | some n =>
    obtain ⟨hword, -, -⟩ := modifierLength?_eq_some.mp hlength
    exact (Bool.and_eq_true_iff.mp hword).1
  | none =>
    rw [afterModifiers_of_none hlength] at hstart
    rw [← hstart, seesDeclarationKeyword, Bool.and_eq_true, Bool.and_eq_true] at hkeyword
    exact hkeyword.1.1

/-- An item that a declaration begins is that declaration: neither a semicolon nor a directive begins one. -/
theorem itemBody_of_start {type item : Rule} {start : List Token} (hlex : ∀ t ∈ ts, t.Lexical)
    (h : declarationStart? ts = some start) :
    itemBody type item ts = declaration type item (declarationKind (textAt 0 start)) ts := by
  have hother {text : String} {kind : TokenKind} (hkind : lexicalKind? text = some kind)
      (hsign : kind ≠ .atSign ∧ kind ≠ .identifier ∧ kind ≠ .keyword) : sees text ts = false := by
    cases ts with
    | nil => rfl
    | cons t ts =>
      refine beq_eq_false_iff_ne.mpr fun htext => ?_
      have ht := (hlex t mem_cons_self).kind_of_text htext hkind
      rcases head_of_declarationStart? h with hat | hword
      · exact hsign.1 (ht ▸ hat)
      · rw [Token.isWord, Bool.or_eq_true, beq_iff_eq, beq_iff_eq, ht] at hword
        exact hword.elim hsign.2.1 hsign.2.2
  have hsemi : sees ";" ts = false := hother rfl (by decide)
  have hif : sees "#if" ts = false := hother rfl (by decide)
  unfold itemBody Rule.either
  simp only [hsemi, hif, h, Bool.false_eq_true, if_false]

/-- Two keywords introduce the same kind of declaration only if they are the same, or `var` and `let`. -/
theorem declarationKind_eq_iff {a b : String} (ha : a ∈ declarationKeywords) (hb : b ∈ declarationKeywords) :
    declarationKind a = declarationKind b ↔ a = b ∨ (a ∈ ["var", "let"] ∧ b ∈ ["var", "let"]) := by
  have hall : ∀ a ∈ declarationKeywords, ∀ b ∈ declarationKeywords,
      declarationKind a = declarationKind b ↔ a = b ∨ (a ∈ ["var", "let"] ∧ b ∈ ["var", "let"]) := by
    decide
  exact hall a ha b hb

/-! ## Effects -/

theorem mem_of_throws {text : String} (h : (text == "throws" || text == "rethrows") = true) :
    text ∈ ["async", "reasync", "throws", "rethrows"] := by
  rw [Bool.or_eq_true, beq_iff_eq, beq_iff_eq] at h
  rcases h with h | h <;> simp [h]

/-- One effect of a sort that may name an error type is read as it is skipped. -/
theorem effect_of_throws (hthrows : (t.text == "throws" || t.text == "rethrows") = true)
    (hrest : (seesAdjacent "(" ts = true ∧ ∃ run, takeGroup 0 ts = some (run, rest)) ∨
      (seesAdjacent "(" ts = false ∧ rest = ts)) :
    ∃ f, effect (t :: ts) = .ok (f, rest) := by
  have hsees : seesThrows (t :: ts) = true := hthrows
  rw [effect, either_of_yes hsees]
  rcases hrest with ⟨hadjacent, run, hrun⟩ | ⟨hadjacent, rfl⟩
  · have hgroup : optional (seesAdjacent "(") group ts = _ := (either_of_yes hadjacent).trans (group_ok hrun)
    exact ⟨_, seq_ok (bump_cons t ts) hgroup⟩
  · exact ⟨_, seq_ok (bump_cons t rest) (optional_of_no hadjacent)⟩

theorem isWord_of_effect (hlex : t.Lexical) (h : t.text ∈ ["async", "reasync", "throws", "rethrows"]) :
    t.isWord = true := by
  have hwords : ∀ text ∈ ["async", "reasync", "throws", "rethrows"],
      (lexicalKind? text).any (fun k => k == .identifier || k == .keyword) = true := by
    decide
  have hword := hwords t.text h
  rw [hlex.lexicalKind?_eq] at hword
  exact hword

/-- **Effects that are skipped are read.** The search goes by the texts of the tokens alone, but tokens
with these texts are words. -/
theorem exists_effects (hlex : ∀ t ∈ ts, t.Lexical) (h : afterEffects? ts = some rest) :
    ∃ f, many seesEffect effect ts = .ok (f, rest) := by
  have hasked {t : Token} {us : List Token} (ht : t.Lexical)
      (hmem : t.text ∈ ["async", "reasync", "throws", "rethrows"]) : seesEffect (t :: us) = true :=
    Bool.and_eq_true_iff.mpr ⟨contains_iff_mem.mpr hmem, isWord_of_effect ht hmem⟩
  fun_induction afterEffects? ts with
  | case1 =>
    cases h
    exact ⟨[], many_of_not rfl⟩
  | case2 t ts hasync ih =>
    obtain ⟨f, hf⟩ := ih (fun u hu => hlex u (mem_cons_of_mem t hu)) h
    rw [Bool.or_eq_true, beq_iff_eq, beq_iff_eq] at hasync
    have hplain : seesThrows (t :: ts) = false := by
      show (t.text == "throws" || t.text == "rethrows") = false
      rcases hasync with ht | ht <;> rw [ht] <;> rfl
    have hread : effect (t :: ts) = .ok ([.token t], ts) := (either_of_no hplain).trans (bump_cons t ts)
    have hyes : seesEffect (t :: ts) = true := by
      refine hasked (hlex t mem_cons_self) ?_
      rcases hasync with ht | ht <;> simp [ht]
    exact ⟨_, many_round_ok hyes hread (Nat.lt_succ_self _) hf⟩
  | case3 t ts _ hthrows hadjacent q hq ih =>
    have hlt := length_lt_of_takeGroup hq
    have htail : ∀ u ∈ q.2, u.Lexical := by
      intro u hu
      refine hlex u (mem_cons_of_mem t ?_)
      rw [← takeGroup_append hq]
      exact mem_append_right q.1 hu
    obtain ⟨f, hf⟩ := ih htail h
    obtain ⟨g, hg⟩ : ∃ g, effect (t :: ts) = .ok (g, q.2) :=
      effect_of_throws hthrows (.inl ⟨hadjacent, q.1, hq⟩)
    exact ⟨_, many_round_ok (hasked (hlex t mem_cons_self) (mem_of_throws hthrows)) hg
      (Nat.lt_succ_of_lt hlt) hf⟩
  | case4 => cases h
  | case5 t ts _ hthrows hadjacent ih =>
    obtain ⟨f, hf⟩ := ih (fun u hu => hlex u (mem_cons_of_mem t hu)) h
    obtain ⟨g, hg⟩ := effect_of_throws hthrows (.inr ⟨Bool.eq_false_iff.mpr hadjacent, rfl⟩)
    exact ⟨_, many_round_ok (hasked (hlex t mem_cons_self) (mem_of_throws hthrows)) hg
      (Nat.lt_succ_self _) hf⟩
  | case6 t ts hasync hthrows =>
    cases h
    refine ⟨[], many_of_not (Bool.eq_false_iff.mpr fun hask => ?_)⟩
    have hmem : t.text ∈ ["async", "reasync", "throws", "rethrows"] :=
      contains_iff_mem.mp (Bool.and_eq_true_iff.mp hask).1
    simp only [mem_cons, not_mem_nil, or_false] at hmem
    simp only [Bool.or_eq_true, beq_iff_eq] at hasync hthrows
    rcases hmem with ht | ht | ht
    · exact hasync (.inl ht)
    · exact hasync (.inr ht)
    · exact hthrows ht

/-- **Behind the effects an arrow is read** where one was seen behind them. -/
theorem exists_arrow (hlex : ∀ t ∈ ts, t.Lexical) (h : seesFunctionArrow ts = true) :
    ∃ f arrow tail, afterEffects? ts = some (arrow :: tail) ∧ arrow.kind = .arrow ∧
      optional seesEffect effectSpecifiers ts = .ok (f, arrow :: tail) := by
  cases heffects : afterEffects? ts with
  | none =>
    rw [seesFunctionArrow, heffects] at h
    cases h
  | some rest =>
    rw [seesFunctionArrow, heffects, Option.any_some] at h
    obtain ⟨arrow, tail, rfl⟩ := (ofHead_seesKind .arrow).exists_cons h
    obtain ⟨f, hf⟩ := exists_effects hlex heffects
    obtain ⟨g, hg⟩ := exists_optional_list hf .effectSpecifiers
    exact ⟨g, arrow, tail, rfl, eq_of_beq h, hg⟩

end Rule

/-! ## Places among the tokens -/

/-- Tokens that end a list are those from some place on. -/
theorem exists_drop_of_isSuffix {tokens tail : List Token} {t : Token} {pos : Nat}
    (h : t :: tail <:+ tokens.drop pos) :
    ∃ k, pos ≤ k ∧ tokens[k]? = some t ∧ tokens.drop k = t :: tail ∧ tokens.drop (k + 1) = tail := by
  obtain ⟨front, hfront⟩ := h
  have hdrop : tokens.drop (pos + front.length) = t :: tail := by
    rw [← drop_drop, ← hfront, drop_left]
  refine ⟨pos + front.length, Nat.le_add_right _ _, ?_, hdrop, ?_⟩
  · rw [← List.head?_drop, hdrop]
    rfl
  · rw [← drop_drop, hdrop]
    rfl

open Rule

/-- The declaration that a search from `pos` finds, with the token `k` as its keyword. -/
structure DeclarationFound (tokens : List Token) (pos k : Nat) (keyword : Token)
    (attributes modifiers : List Tree) (mid : List Token) : Prop where
  place : pos ≤ k ∧ tokens[k]? = some keyword
  isKeyword : keyword.isWord = true ∧ keyword.text ∈ declarationKeywords
  /-- The attributes and modifiers in front of the keyword are read, and they leave the tokens from the
  keyword on. -/
  readsAttributes : optional (seesKind .atSign) attributeList (tokens.drop pos) = .ok (attributes, mid)
  readsModifiers : optional isModifier modifierList mid = .ok (modifiers, tokens.drop k)
  /-- Modifiers may as well be read just up to the keyword. -/
  readsUpTo : modifiersUpTo (tokens.length - k) mid = .ok (modifiers, tokens.drop k)
  readsIntroducer : introducer (tokens.drop pos) =
    .ok (attributes ++ modifiers ++ [.token keyword], tokens.drop (k + 1))
  /-- No other keyword introduces a declaration of its kind, `var` and `let` aside. -/
  onlyKeyword : ∀ word ∈ declarationKeywords, declarationKind word = declarationKind keyword.text →
    word = keyword.text ∨ (word ∈ ["var", "let"] ∧ keyword.text ∈ ["var", "let"])
  /-- The item is a declaration of this kind. -/
  readsItem : ∀ type item, itemBody type item (tokens.drop pos) =
    (declarationRest type item (declarationKind keyword.text) (tokens.drop (k + 1))).map fun out =>
      ([.node (declarationKind keyword.text) (attributes ++ modifiers ++ .token keyword :: out.1)], out.2)

/-- The arrow that a search from `pos` finds behind effects, the token `k`. -/
structure ArrowFound (tokens : List Token) (pos k : Nat) (arrow : Token) (effects : List Tree) : Prop where
  place : pos ≤ k ∧ tokens[k]? = some arrow
  isArrow : arrow.kind = .arrow ∧ arrow.text = "->"
  search : afterEffects? (tokens.drop pos) = some (tokens.drop k)
  /-- The effects in front of the arrow are read, and they leave the tokens from the arrow on. -/
  readsEffects : optional seesEffect effectSpecifiers (tokens.drop pos) = .ok (effects, tokens.drop k)
  /-- The result of the function type begins behind the arrow. -/
  readsResult : ∀ inner, (optional seesEffect effectSpecifiers ++ bump ++ inner : Rule) (tokens.drop pos) =
    (inner (tokens.drop (k + 1))).map fun out => (effects ++ .token arrow :: out.1, out.2)

/-- **Both searches agree with the reading that follows them**, from any place among the tokens of a source
(`exists_attributes`, `exists_modifierList`, `exists_arrow`). -/
theorem search_commits {source : String} {tokens : List Token} (h : tokenize source = .ok tokens)
    (pos : Nat) :
    (∀ start, declarationStart? (tokens.drop pos) = some start → ∃ k keyword attributes modifiers mid,
      start = tokens.drop k ∧ DeclarationFound tokens pos k keyword attributes modifiers mid) ∧
    (seesFunctionArrow (tokens.drop pos) = true →
      ∃ k arrow effects, ArrowFound tokens pos k arrow effects) := by
  have hlex : ∀ t ∈ tokens.drop pos, t.Lexical :=
    fun t ht => lexical_of_tokensFrom h t (mem_of_mem_drop ht)
  refine ⟨fun start hstart => ?_, fun harrow => ?_⟩
  · obtain ⟨mid, hmid, hmodified, hsees⟩ := declarationStart?_eq_some hstart
    obtain ⟨keyword, tail, rfl⟩ : ∃ keyword tail, start = keyword :: tail := by
      refine exists_cons_of_ne_nil ?_
      rintro rfl
      exact absurd hsees (by decide)
    obtain ⟨k, hk, hat, hdrop, hnext⟩ := exists_drop_of_isSuffix (declarationStart?_isSuffix hstart)
    obtain ⟨cs, hcs⟩ := exists_attributes hmid
    obtain ⟨attributes, hattributes⟩ := exists_optional_list hcs .attributeList
    obtain ⟨modifiers, hmodifiers, hupTo⟩ := exists_modifierList mid
    rw [hmodified] at hmodifiers hupTo
    have hleft : (keyword :: tail).length = tokens.length - k := by rw [← hdrop, length_drop]
    have hintroducer : introducer (tokens.drop pos) = .ok
        (attributes ++ modifiers ++ [.token keyword], tail) :=
      seq_ok (seq_ok hattributes hmodifiers) (bump_cons keyword tail)
    rw [seesDeclarationKeyword, Bool.and_eq_true, Bool.and_eq_true] at hsees
    have hkeyword : keyword.text ∈ declarationKeywords := contains_iff_mem.mp hsees.1.2
    refine ⟨k, keyword, attributes, modifiers, mid, hdrop.symm, ⟨hk, hat⟩, ⟨hsees.1.1, hkeyword⟩, hattributes,
      ?_, ?_, ?_, ?_, ?_⟩
    · rw [hdrop, hmodifiers]
    · rw [hdrop, ← hleft, hupTo]
    · rw [hnext, hintroducer]
    · exact fun word hword hkind => (declarationKind_eq_iff hword hkeyword).mp hkind
    · intro type item
      rw [itemBody_of_start hlex hstart, declaration_of_introducer hintroducer, hnext]
      simp only [append_assoc, singleton_append]
      rfl
  · obtain ⟨effects, arrow, tail, hafter, hkind, hread⟩ := exists_arrow hlex harrow
    have hkeeps := (lawful_effectSpecifiers.optional natural_seesEffect).keeps hread
    obtain ⟨k, hk, hat, hdrop, hnext⟩ := exists_drop_of_isSuffix ⟨_, hkeeps⟩
    have htext := (hlex arrow (hkeeps ▸ mem_append_right _ mem_cons_self)).text_of_kind.1 hkind
    refine ⟨k, arrow, effects, ⟨hk, hat⟩, ⟨hkind, htext⟩, ?_, ?_, ?_⟩
    · rw [hdrop, hafter]
    · rw [hdrop, hread]
    · intro inner
      have hfront := seq_ok hread (bump_cons arrow tail)
      rw [hnext]
      cases hinner : inner tail with
      | error e =>
        rw [seq_error_right hfront hinner]
        rfl
      | ok out =>
        obtain ⟨f, rest⟩ := out
        rw [seq_ok hfront hinner]
        simp only [Except.map, append_assoc, singleton_append]

/-- A variable with a dotted attribute and with `class` as a modifier, and a typed error among the
effects in its type. -/
theorem search_commits_variable : ∃ tokens start,
    tokenize "@A.b(c) @D private(set) class var x: () async throws(E) -> F" = .ok tokens ∧
    start ∈ declarationStart? (tokens.drop 0) ∧ textAt 0 start = "var" ∧
      seesFunctionArrow (tokens.drop 19) = true ∧
    (∃ k keyword attributes modifiers mid, start = tokens.drop k ∧
      DeclarationFound tokens 0 k keyword attributes modifiers mid) ∧
    ∃ k arrow effects, ArrowFound tokens 19 k arrow effects := by
  obtain ⟨tokens, htokens, ⟨start, hstart, hvar⟩, harrow⟩ := exists_ok_of_test
    (x := tokenize "@A.b(c) @D private(set) class var x: () async throws(E) -> F") (P := fun tokens =>
      (∃ start ∈ declarationStart? (tokens.drop 0), textAt 0 start = "var") ∧
        seesFunctionArrow (tokens.drop 19) = true) (by decide +kernel)
  exact ⟨tokens, start, htokens, hstart, hvar, harrow, (search_commits htokens 0).1 start hstart,
    (search_commits htokens 19).2 harrow⟩

end SwiftOutline
