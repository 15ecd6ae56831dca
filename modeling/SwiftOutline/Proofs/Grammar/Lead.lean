import SwiftOutline.Proofs.Grammar.Origin

/-!
# `Lead` — the gap before the first token

A rule may ask whether a token begins a line or stands directly after the one before it. No type and no
item asks this of its own first token, so it does not matter what stands before it, and nothing may.
-/

namespace SwiftOutline

open SwiftOutline.Tree List

/-- A change to the gap before `t` that leaves the tokens after it alone. -/
structure Token.Regap (g : Token → Token) (t : Token) (ts : List Token) : Prop where
  kind : (g t).kind = t.kind
  text : (g t).text = t.text
  fixed : ∀ u ∈ ts, g u = u

variable {g : Token → Token} {ts : List Token} {t : Token}

theorem map_of_fixed (h : ∀ u ∈ ts, g u = u) : ts.map g = ts := by
  rw [map_congr_left h, map_id']

/-- Only the first token changes. -/
theorem Token.Regap.map_cons (hg : Regap g t ts) : (t :: ts).map g = g t :: ts := by
  rw [List.map_cons, map_of_fixed hg.fixed]

theorem Token.Regap.lexical (hg : Regap g t ts) (hlex : t.Lexical) : (g t).Lexical := by
  obtain ⟨c, cs, htext, hscan⟩ := hlex
  exact ⟨c, cs, by rw [hg.text, htext], by rw [hg.kind, hscan]⟩

/-- The end of a list is all of it or has no token that the change touches. -/
theorem Token.Regap.suffix_cases {rest : List Token}
    (hg : Regap g t ts) (h : rest <:+ t :: ts) : rest = t :: ts ∨ ∀ u ∈ rest, g u = u := by
  rcases suffix_cons_iff.mp h with rfl | h
  · exact .inl rfl
  · exact .inr fun u hu => hg.fixed u (h.mem hu)

/-- The answer does not depend on the gap before the next token. -/
def Lookahead.HeadBlind (ask : Lookahead) : Prop :=
  ∀ ⦃t t' : Token⦄ (ts : List Token), t'.kind = t.kind → t'.text = t.text →
    ask (t' :: ts) = ask (t :: ts)

/-- What the rule reads does not depend on the gap before its first token. -/
def Rule.HeadBlind (p : Rule) : Prop :=
  ∀ ⦃g t ts f rest⦄, Token.Regap g t ts → p (t :: ts) = .ok (f, rest) →
    p (g t :: ts) = .ok (f.map (relabel g), rest.map g)

/-! ## Lookaheads -/

namespace Lookahead

theorem headBlind_sees (text : String) : HeadBlind (sees text) := by
  intro t t' ts _ htext
  show (t'.text == text) = (t.text == text)
  rw [htext]

theorem headBlind_seesKind (kind : TokenKind) : HeadBlind (seesKind kind) := by
  intro t t' ts hkind _
  show (t'.kind == kind) = (t.kind == kind)
  rw [hkind]

/-- No gap is looked at. -/
theorem headBlind_isWordAt (n : Nat) : HeadBlind (isWordAt n) := by
  intro t t' ts hkind _
  cases n with
  | zero =>
    show t'.isWord = t.isWord
    rw [Token.isWord, Token.isWord, hkind]
  | succ n => rfl

theorem textAt_headBlind {t t' : Token} (n : Nat) (ts : List Token) (htext : t'.text = t.text) :
    textAt n (t' :: ts) = textAt n (t :: ts) := by
  cases n with
  | zero => exact htext
  | succ n => rfl

theorem headBlind_textAt (n : Nat) (q : String → Bool) : HeadBlind fun ts => q (textAt n ts) := by
  intro t t' ts _ htext
  show q (textAt n (t' :: ts)) = q (textAt n (t :: ts))
  rw [textAt_headBlind n ts htext]

variable {a : Lookahead}

theorem HeadBlind.and {b : Lookahead} (ha : HeadBlind a) (hb : HeadBlind b) :
    HeadBlind fun ts => a ts && b ts := by
  intro t t' ts hkind htext
  simp only [ha ts hkind htext, hb ts hkind htext]

theorem HeadBlind.or {b : Lookahead} (ha : HeadBlind a) (hb : HeadBlind b) :
    HeadBlind fun ts => a ts || b ts := by
  intro t t' ts hkind htext
  simp only [ha ts hkind htext, hb ts hkind htext]

theorem HeadBlind.not (ha : HeadBlind a) : HeadBlind fun ts => !a ts := by
  intro t t' ts hkind htext
  simp only [ha ts hkind htext]

end Lookahead

theorem modifierLength?_headBlind {t' : Token} (ts : List Token) (hkind : t'.kind = t.kind)
    (htext : t'.text = t.text) : modifierLength? (t' :: ts) = modifierLength? (t :: ts) := by
  unfold modifierLength? seesWord
  simp only [Lookahead.textAt_headBlind _ ts htext, Lookahead.headBlind_isWordAt 0 ts hkind htext]

/-! ## Putting rules together -/

theorem Tree.map_relabel_of_fixed {f : List Tree} (h : ∀ u ∈ forestTokens f, g u = u) :
    f.map (relabel g) = f := by
  rw [relabelForest_congr f h]
  exact relabelForest_id f

namespace Rule

variable {p q : Rule} {g : Token → Token} {t : Token} {ts : List Token}

variable {f : List Tree} {ask : Lookahead}

/-- A rule leaves the whole input, or tokens that the change does not touch. -/
theorem Keeps.rest_cases (hp : Keeps p) (hg : Token.Regap g t ts) {rest : List Token}
    (h : p (t :: ts) = .ok (f, rest)) : rest = t :: ts ∨ ∀ u ∈ rest, g u = u :=
  hg.suffix_cases ⟨_, hp h⟩

/-- A rule that reads behind the change reads what it read before. -/
theorem Keeps.outcome_fixed (hp : Keeps p) {mid rest : List Token}
    (hmid : ∀ u ∈ mid, g u = u) (h : p mid = .ok (f, rest)) :
    p mid = .ok (f.map (relabel g), rest.map g) := by
  have htokens := hp h
  rw [map_relabel_of_fixed fun u hu => hmid u (by rw [← htokens]; exact mem_append_left _ hu),
    map_of_fixed fun u hu => hmid u (by rw [← htokens]; exact mem_append_right _ hu), h]

theorem headBlind_nothing : HeadBlind nothing := by
  intro g t ts f rest hg h
  cases h
  rw [← hg.map_cons]
  rfl

theorem headBlind_bumps (n : Nat) : HeadBlind (bumps n) := by
  intro g t ts f rest hg h
  cases h
  rw [← hg.map_cons]
  exact bumps_map g n (t :: ts)

theorem headBlind_bump : HeadBlind bump := headBlind_bumps 1

/-- Behind the first rule the input is as it was (`Keeps.rest_cases`). -/
theorem HeadBlind.seq (hp : HeadBlind p) (hq : HeadBlind q) (hkp : Keeps p) (hkq : Keeps q) :
    HeadBlind (p ++ q) := by
  intro g t ts f rest hg h
  obtain ⟨f₁, mid, f₂, h₁, h₂, rfl⟩ := seq_eq_ok h
  have hfirst := hp hg h₁
  rw [map_append]
  rcases hkp.rest_cases hg h₁ with rfl | hfixed
  · -- the first rule has read nothing, so the second one sees the change
    rw [hg.map_cons] at hfirst
    exact seq_ok hfirst (hq hg h₂)
  · rw [map_of_fixed hfixed] at hfirst
    exact seq_ok hfirst (hkq.outcome_fixed hfixed h₂)

/-- The rule reads a token, keeps what it reads, and does not see the gap before its first token. -/
structure Leads (p : Rule) : Prop where
  blind : HeadBlind p
  reads : Consumes p
  keeps : Keeps p

theorem leads_bump : Leads bump := ⟨headBlind_bump, consumes_bump, keeps_bump⟩

/-- Behind a rule that reads a token no rule sees the change. -/
theorem Leads.fixed (hp : Leads p) (hg : Token.Regap g t ts) {mid : List Token}
    (h : p (t :: ts) = .ok (f, mid)) :
    p (g t :: ts) = .ok (f.map (relabel g), mid) ∧ ∀ u ∈ mid, g u = u := by
  rcases hp.keeps.rest_cases hg h with rfl | hfixed
  · exact absurd (hp.reads (cons_ne_nil t ts) h) (Nat.lt_irrefl _)
  · exact ⟨by rw [hp.blind hg h, map_of_fixed hfixed], hfixed⟩

/-- Only the first rule sees the changed token (`Leads.fixed`). -/
theorem Leads.seq (hp : Leads p) (hq : Lawful q) : Leads (p ++ q) where
  blind g t ts f rest hg h := by
    obtain ⟨f₁, mid, f₂, h₁, h₂, rfl⟩ := seq_eq_ok h
    obtain ⟨hfirst, hfixed⟩ := hp.fixed hg h₁
    rw [map_append]
    exact seq_ok hfirst (hq.keeps.outcome_fixed hfixed h₂)
  reads := hp.reads.seq_left hq
  keeps := hp.keeps.seq hq.keeps

/-- The question is blind, so the same branch is taken. -/
theorem HeadBlind.either (hask : ask.HeadBlind) (hp : HeadBlind p)
    (hq : HeadBlind q) : HeadBlind (either ask p q) := by
  intro g t ts f rest hg h
  unfold Rule.either at h ⊢
  rw [hask ts hg.kind hg.text]
  split at h
  · next hyes =>
    rw [if_pos hyes]
    exact hp hg h
  · next hno =>
    rw [if_neg hno]
    exact hq hg h

theorem HeadBlind.optional (hp : HeadBlind p) (hask : ask.HeadBlind) :
    HeadBlind (optional ask p) :=
  HeadBlind.either hask hp headBlind_nothing

theorem HeadBlind.node (hp : HeadBlind p) (kind : NodeKind) : HeadBlind (node kind p) := by
  intro g t ts f rest hg h
  obtain ⟨cs, hcs, rfl⟩ := node_eq_ok h
  rw [map_singleton, relabel_node]
  exact node_ok (hp hg hcs)

/-- As for `Leads.seq`. -/
theorem Leads.closing {first : NodeKind} {ask : List Token → NodeKind × Rule} (hp : Leads p)
    (hq : ∀ ts, Lawful (ask ts).2) : Leads (closing first p ask) where
  blind g t ts f rest hg h := by
    obtain ⟨f₁, mid, f₂, h₁, h₂, rfl⟩ := closing_eq_ok h
    obtain ⟨hfirst, hfixed⟩ := hp.fixed hg h₁
    rw [map_singleton, relabel_node, map_append]
    exact closing_ok hfirst ((hq mid).keeps.outcome_fixed hfixed h₂)
  reads := hp.reads.closing hq
  keeps := hp.keeps.closing fun ts => (hq ts).keeps

theorem Leads.node (hp : Leads p) (kind : NodeKind) : Leads (node kind p) :=
  ⟨hp.blind.node kind, hp.reads.node kind, hp.keeps.node kind⟩

theorem Leads.either (hask : ask.HeadBlind) (hp : Leads p) (hq : Leads q) :
    Leads (either ask p q) :=
  ⟨HeadBlind.either hask hp.blind hq.blind, hp.reads.either hq.reads ask, hp.keeps.either hq.keeps ask⟩

/-- Only the first round sees the change. -/
theorem HeadBlind.many (hp : HeadBlind p) (hask : ask.HeadBlind)
    (hreads : Shortens ask p)
    (hkp : Keeps p) : HeadBlind (many ask p) := by
  intro g t ts f rest hg h
  cases ha : ask (t :: ts) with
  | false =>
    rw [many_of_not ha] at h
    cases h
    rw [many_of_not ((hask ts hg.kind hg.text).trans ha), ← hg.map_cons]
    rfl
  | true =>
    obtain ⟨f₁, mid, f₂, h₁, h₂, rfl⟩ := many_eq_ok_of_asked ha h fun _ _ => hreads ha
    have hlt := hreads ha h₁
    have hfirst := hp hg h₁
    rw [map_append]
    rcases hkp.rest_cases hg h₁ with rfl | hfixed
    · exact absurd hlt (Nat.lt_irrefl _)
    · rw [map_of_fixed hfixed] at hfirst
      exact many_round_ok ((hask ts hg.kind hg.text).trans ha) hfirst hlt
        ((hkp.many ask).outcome_fixed hfixed h₂)

end Rule

/-! ## Looking for a declaration -/

section

variable {g : Token → Token} {t : Token} {ts : List Token} (hg : Token.Regap g t ts)
include hg

/-- By induction: an attribute reads past the changed token. -/
theorem afterAttributes?_regap :
    afterAttributes? (g t :: ts) = (afterAttributes? (t :: ts)).map (List.map g) := by
  have hsame := Lookahead.headBlind_seesKind .atSign ts hg.kind hg.text
  cases hs : seesKind .atSign (t :: ts) with
  | false =>
    rw [afterAttributes?_of_not hs, afterAttributes?_of_not (hsame.trans hs), Option.map_some, hg.map_cons]
  | true =>
    -- of its first token an attribute is not asked anything any more
    have ha' : afterAttribute? (g t :: ts) = afterAttribute? (t :: ts) := by
      cases ts with
      | nil => rfl
      | cons u us => rfl
    cases ha : afterAttribute? (t :: ts) with
    | none =>
      rw [afterAttributes?_of_none hs ha, afterAttributes?_of_none (hsame.trans hs) (ha'.trans ha),
        Option.map_none]
    | some mid =>
      rw [afterAttributes?_of_some hs ha, afterAttributes?_of_some (hsame.trans hs) (ha'.trans ha)]
      cases h : afterAttributes? mid with
      | none => rfl
      | some rest =>
        have hlt := length_lt_of_afterAttribute? ha
        have hsuffix := afterAttributes?_isSuffix h
        rw [Option.map_some, map_of_fixed]
        intro u hu
        rcases hg.suffix_cases (hsuffix.trans (afterAttribute?_isSuffix ha)) with rfl | hfixed
        · exact absurd hsuffix.length_le (Nat.not_le_of_lt hlt)
        · exact hfixed u hu

/-- A modifier reads past it too. -/
theorem afterModifiers_regap : afterModifiers (g t :: ts) = (afterModifiers (t :: ts)).map g := by
  have hsame := modifierLength?_headBlind ts hg.kind hg.text
  cases h : modifierLength? (t :: ts) with
  | none =>
    rw [afterModifiers_of_none h, afterModifiers_of_none (hsame.trans h), hg.map_cons]
  | some n =>
    obtain ⟨n, rfl⟩ := Nat.exists_eq_add_one.mpr (pos_of_modifierLength? h).1
    rw [afterModifiers_of_some h, afterModifiers_of_some (hsame.trans h), drop_succ_cons,
      drop_succ_cons, map_of_fixed]
    intro u hu
    exact hg.fixed u (mem_of_mem_drop ((afterModifiers_isSuffix _).mem hu))

/-- By `afterAttributes?_regap` and `afterModifiers_regap`. -/
theorem declarationStart?_regap :
    declarationStart? (g t :: ts) = (declarationStart? (t :: ts)).map (List.map g) := by
  have hblind : Lookahead.HeadBlind seesDeclarationKeyword :=
    ((Lookahead.headBlind_isWordAt 0).and (Lookahead.headBlind_textAt 0 declarationKeywords.contains)).and
      ((Lookahead.headBlind_sees "actor").not.or (Lookahead.headBlind_isWordAt 1))
  rw [declarationStart?, declarationStart?, afterAttributes?_regap hg]
  cases hmid : afterAttributes? (t :: ts) with
  | none => rfl
  | some mid =>
    have hsuffix := afterAttributes?_isSuffix hmid
    have hafter : afterModifiers (mid.map g) = (afterModifiers mid).map g := by
      rcases hg.suffix_cases hsuffix with rfl | hfixed
      · rw [hg.map_cons, afterModifiers_regap hg]
      · rw [map_of_fixed hfixed, map_of_fixed fun u hu => hfixed u ((afterModifiers_isSuffix mid).mem hu)]
    have hsees : seesDeclarationKeyword ((afterModifiers mid).map g) =
        seesDeclarationKeyword (afterModifiers mid) := by
      rcases hg.suffix_cases ((afterModifiers_isSuffix mid).trans hsuffix) with hall | hfixed
      · rw [hall, hg.map_cons, hblind ts hg.kind hg.text]
      · rw [map_of_fixed hfixed]
    show (if seesDeclarationKeyword (afterModifiers (mid.map g)) then _ else none) =
      Option.map _ (if seesDeclarationKeyword (afterModifiers mid) then _ else none)
    rw [hafter, hsees]
    split <;> rfl

end

/-! ## Function types and declarations -/

namespace Rule

open Lookahead

theorem leads_parenType {inner : Rule} (hinner : Lawful inner) : Leads (parenType inner) := by
  have hlist := ((lawful_tupleElement hinner .tupleTypeElement).entries ")" "')'").node .tupleTypeElementList
  refine ((leads_bump.seq hlist).seq lawful_bump).closing fun ts => ?_
  split
  · exact ((lawful_effectSpecifiers.optional natural_seesEffect).seq lawful_bump).seq hinner
  · exact lawful_nothing

theorem leads_declAttribute : Leads declAttribute :=
  (((leads_bump.seq (lawful_expectWord _)).seq
    ((lawful_bumps 2).many ((natural_seesAdjacent ".").and (natural_isWordAt 1)))).seq
    ((lawful_group.node _).optional (natural_seesAdjacent "("))).node _

theorem headBlind_attributeList : HeadBlind attributeList :=
  (leads_declAttribute.blind.many (headBlind_seesKind .atSign)
    (leads_declAttribute.reads.shortens (ofHead_seesKind .atSign))
    lawful_declAttribute.keeps).node _

theorem headBlind_isModifier : Lookahead.HeadBlind isModifier := by
  intro t t' ts hkind htext
  show (modifierLength? (t' :: ts)).isSome = (modifierLength? (t :: ts)).isSome
  rw [modifierLength?_headBlind ts hkind htext]

theorem headBlind_declModifier : HeadBlind declModifier := by
  refine HeadBlind.node ?_ _
  intro g t ts f rest hg h
  simp only [modifierLength?_headBlind ts hg.kind hg.text]
  exact headBlind_bumps _ hg h

/-- Attributes, modifiers and a keyword are told by texts. -/
theorem headBlind_introducer : HeadBlind introducer := by
  have hmodifiers : HeadBlind modifierList :=
    (headBlind_declModifier.many headBlind_isModifier (fun _ _ _ => length_lt_of_declModifier)
      keeps_declModifier).node _
  have hkeeps := (lawful_attributeList.optional (natural_seesKind .atSign)).seq
    (lawful_modifierList.optional natural_isModifier)
  exact ((headBlind_attributeList.optional (headBlind_seesKind .atSign)).seq
    (hmodifiers.optional headBlind_isModifier)
    (lawful_attributeList.optional (natural_seesKind .atSign)).keeps
    (lawful_modifierList.optional natural_isModifier).keeps).seq headBlind_bump hkeeps.keeps
    keeps_bump

theorem leads_ifConfig {item : Rule} (hitem : Lawful item) : Leads (ifConfig item) := by
  have hhead := Leads.either (headBlind_sees "#else") leads_bump (leads_bump.seq lawful_ifConfigCondition)
  have hitems := (hitem.require (natural_seesEnd.or (natural_sees "\x7d")).not "'#endif'").many
      natural_seesClauseEnd.not
  have hclauses := (lawful_ifConfigClause hitem).many (natural_seesClauseEnd.and (natural_sees "#endif").not)
  exact ((((hhead.seq hitems).node .ifConfigClause).seq hclauses).seq lawful_bump).node _

/-- Of its first token a run is not asked whether it begins a line. -/
theorem headBlind_run (comma : Bool) : HeadBlind fun ts =>
    .ok ((takeRun comma false 0 ts).1.map .token, (takeRun comma false 0 ts).2) := by
  intro g t ts f rest hg h
  -- a line break ends a run only where the run has begun
  have hends : runEnds comma false (g t :: ts) = runEnds comma false (t :: ts) := by
    have hclause : seesClauseEnd (g t :: ts) = seesClauseEnd (t :: ts) := by
      rw [seesClauseEnd, seesClauseEnd, headBlind_sees _ ts hg.kind hg.text,
        headBlind_sees _ ts hg.kind hg.text, headBlind_sees _ ts hg.kind hg.text]
    simp only [runEnds, hclause, hg.kind, hg.text, Bool.false_and]
  have hdepth : depthAfter 0 (g t) = depthAfter 0 t := by
    rw [depthAfter, depthAfter, isOpener, isOpener, isCloser, isCloser, hg.kind, hg.text]
  cases h
  show Except.ok _ = _
  rw [takeRun, takeRun, hends, hdepth]
  split
  · rw [hg.map_cons]
    rfl
  · have hsplit := takeRun_append comma true (depthAfter 0 t) ts
    have hrun : ∀ u ∈ (takeRun comma true (depthAfter 0 t) ts).1, g u = u := fun u hu =>
      hg.fixed u (by rw [← hsplit]; exact mem_append_left _ hu)
    have hrest : ∀ u ∈ (takeRun comma true (depthAfter 0 t) ts).2, g u = u := fun u hu =>
      hg.fixed u (by rw [← hsplit]; exact mem_append_right _ hu)
    simp only [List.map_cons, map_map, relabel_token, map_of_fixed hrest]
    congr 3
    refine map_congr_left fun u hu => ?_
    show token u = relabel g (token u)
    rw [relabel_token, hrun u hu]

theorem headBlind_statement : HeadBlind statement := by
  have hblind : Lookahead.HeadBlind fun ts => !(sees "\x7d" ts || seesClauseEnd ts) :=
    ((headBlind_sees "\x7d").or (((headBlind_sees "#elseif").or (headBlind_sees "#else")).or
      (headBlind_sees "#endif"))).not
  refine HeadBlind.either hblind ((headBlind_run false).node _) ?_
  intro g t ts f rest _ h
  cases h

/-- By cases on how an item begins. -/
theorem headBlind_itemBody {type item : Rule} (htype : Lawful type) (hitem : Lawful item) :
    HeadBlind (itemBody type item) := by
  intro g t ts f rest hg h
  have hsemi' := headBlind_sees ";" ts hg.kind hg.text
  have hif' := headBlind_sees "#if" ts hg.kind hg.text
  cases hsemi : sees ";" (t :: ts) with
  | true =>
    rw [itemBody_semicolon hsemi] at h
    rw [itemBody_semicolon (hsemi'.trans hsemi)]
    exact headBlind_bump hg h
  | false =>
    rw [hsemi] at hsemi'
    cases hif : sees "#if" (t :: ts) with
    | true =>
      rw [itemBody_ifConfig hsemi hif] at h
      rw [itemBody_ifConfig hsemi' (hif'.trans hif)]
      exact (leads_ifConfig hitem).blind hg h
    | false =>
      rw [hif] at hif'
      have hstart' := declarationStart?_regap hg
      cases hstart : declarationStart? (t :: ts) with
      | some start =>
        rw [hstart] at hstart'
        rw [itemBody_declaration hsemi hif hstart] at h
        have hkeyword : textAt 0 (start.map g) = textAt 0 start := by
          rcases hg.suffix_cases (declarationStart?_isSuffix hstart) with rfl | hfixed
          · rw [hg.map_cons]
            exact hg.text
          · rw [map_of_fixed hfixed]
        rw [itemBody_declaration hsemi' hif' hstart', hkeyword]
        have hlead : Leads introducer := ⟨headBlind_introducer, consumes_introducer, lawful_introducer.keeps⟩
        exact ((hlead.seq (lawful_declarationRest htype hitem _)).node _).blind hg h
      | none =>
        rw [hstart] at hstart'
        rw [itemBody_statement hsemi hif hstart] at h
        rw [itemBody_statement hsemi' hif' hstart']
        exact headBlind_statement hg h

/-- **No item sees the gap before its first token.** -/
theorem headBlind_item (n : Nat) : HeadBlind (item n) := by
  cases n with
  | zero =>
    intro g t ts f rest _ h
    cases h
  | succ n => exact headBlind_itemBody (lawful_type n) (lawful_item n)

/-! ## Original nodes as whole texts -/

variable {t : Token} {ts : List Token}

theorem kind_of_paren (hlex : t.Lexical) (htext : t.text = "(") : t.kind = .punct := by
  obtain ⟨c, cs, hcs, hscan⟩ := hlex
  rw [htext, show "(".toList = ['('] from rfl] at hcs
  obtain ⟨rfl, rfl⟩ := List.cons.inj hcs
  have hpunct : scanLexeme 0 '(' [] = .ok ⟨.punct, ['('], []⟩ := rfl
  rw [hpunct] at hscan
  injection hscan with hscan
  injection hscan with hkind
  exact hkind.symm

/-- Parentheses that are the whole input are a type without anything in front of it or behind it. -/
theorem typeBody_of_parenType {inner : Rule} {u : Tree} (hlex : t.Lexical)
    (htext : t.text = "(") (h : parenType inner (t :: ts) = .ok ([u], [])) :
    typeBody inner (t :: ts) = .ok ([u], []) := by
  have hsees (text : String) : sees text (t :: ts) = ("(" == text) := by
    rw [← htext]
    rfl
  have hat : seesKind .atSign (t :: ts) = false := by
    show (t.kind == .atSign) = false
    rw [kind_of_paren hlex htext]
    rfl
  have hspecifier : seesTypeSpecifier (t :: ts) = false := by
    rw [seesTypeSpecifier, show textAt 0 (t :: ts) = "(" from htext]
    rfl
  have hsome : seesSomeOrAny (t :: ts) = false := by
    rw [seesSomeOrAny, hsees, hsees]
    rfl
  have hprimary : primaryType inner (t :: ts) = .ok ([u], []) := by
    rw [primaryType, either, if_pos (show sees "(" (t :: ts) = true from hsees "("), h]
  have hpostfix : postfixType inner (t :: ts) = .ok ([u], []) := by
    rw [postfixType, wrapping, hprimary]
    exact wrappings_of_none (show postfixForm inner [] = none from rfl) [u]
  have hsimple : simpleType inner (t :: ts) = .ok ([u], []) := by
    unfold simpleType either
    simp only [hat, hspecifier, hsome, hsees "~", Bool.or_self, Bool.false_eq_true, if_false]
    exact hpostfix
  rw [typeBody, wrapping, hsimple]
  exact wrappings_of_none (show compositionForm inner [] = none from rfl) [u]

/-- A type that reads all is a whole text. -/
theorem soleType_of_type {ts : List Token} {u : Tree} (h : type nestingLimit ts = .ok ([u], [])) :
    soleType ts = .ok ([u], []) := by
  have hellipsis : optional (seesKind .ellipsis) bump [] = .ok ([], []) := rfl
  have hend : require seesEnd "end of type" nothing [] = .ok ([], []) := rfl
  exact seq_ok (seq_ok h hellipsis) hend

/-- **A function type is all of a text that has its tokens**, whatever stood before it. -/
theorem soleType_of_original {cs : List Tree} {g : Token → Token}
    (h : Tree.Original .functionType cs) (htokens : (Tree.node .functionType cs).tokens = t :: ts)
    (hg : Token.Regap g t ts) :
    soleType (g t :: ts) = .ok ([(Tree.node .functionType cs).relabel g], []) := by
  obtain ⟨n, hn, us, rest, hlex, hsees, hok⟩ := h.functionType rfl
  have hagain := parenType_alone hlex (Nat.le_pred_of_lt hn) hsees hok
  rw [forestTokens_singleton, htokens] at hagain
  -- the first token is the opening parenthesis
  have hus : us = t :: (ts ++ rest) := by
    rw [← (lawful_parenType (lawful_type n)).keeps hok, forestTokens_singleton, htokens, cons_append]
  subst hus
  have htext : t.text = "(" := beq_iff_eq.mp hsees
  have hblind := (leads_parenType (lawful_type _)).blind hg hagain
  have htype := typeBody_of_parenType (hg.lexical (hlex t mem_cons_self)) (hg.text.trans htext) hblind
  exact soleType_of_type htype

/-- **A declaration is all of a text that has its tokens**, whatever stood before it. -/
theorem sourceItems_of_original {kind : NodeKind} {cs : List Tree} {g : Token → Token}
    (hkind : kind.isDecl = true) (h : Tree.Original kind cs)
    (htokens : (Tree.node kind cs).tokens = t :: ts) (hg : Token.Regap g t ts) :
    sourceItems (g t :: ts) = .ok ([(Tree.node kind cs).relabel g], []) := by
  obtain ⟨n, hn, us, rest, hlex, hok⟩ := h.declaration hkind
  have hstatement : kind ≠ .statement := by
    rintro rfl
    cases hkind
  have halone := item_alone hn hlex hok hstatement
  rw [htokens] at halone
  have hitem := headBlind_item _ hg halone
  exact many_round_ok rfl hitem (Nat.zero_lt_succ _) (many_of_not rfl)

end Rule

end SwiftOutline
