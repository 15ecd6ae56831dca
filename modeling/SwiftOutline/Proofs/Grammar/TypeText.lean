import SwiftOutline.Proofs.Grammar.Excerpt

/-!
# `TypeText` — the text of a type read on its own

A type asks nothing about the gap before its first token, and over a cut it is read again. So whatever
the rule for types has read, in whatever surroundings, is the tree of its own text.
-/

namespace SwiftOutline

open SwiftOutline.Tree Rule List

namespace Rule

open Lookahead

variable {p : Rule} {g : Token → Token} {ask : Form}

/-! ## Wrappings -/

/-- Nodes that are put around trees take in what the trees have become. -/
theorem wrappings_relabel (hask : ∀ {ts kind q}, ask ts = some (kind, q) → Keeps q) {f f' : List Tree}
    {ts rest : List Token} (h : wrappings ask f ts = .ok (f', rest)) (hts : ∀ u ∈ ts, g u = u) :
    wrappings ask (f.map (relabel g)) ts = .ok (f'.map (relabel g), rest.map g) := by
  -- each round adds trees that the change leaves alone
  have hadd {f g' : List Tree} {kind : NodeKind} (hg' : g'.map (relabel g) = g') :
      [Tree.node kind (f.map (relabel g) ++ g')] = [Tree.node kind (f ++ g')].map (relabel g) := by
    rw [map_singleton, relabel_node, map_append, hg']
  have hread {q : Rule} {kind : NodeKind} {ts rest : List Token} {g' : List Tree} (ha :
      ask ts = some (kind, q))
      (hq : q ts = .ok (g', rest)) (hts : ∀ u ∈ ts, g u = u) : g'.map (relabel g) = g' := by
    refine map_relabel_of_fixed fun u hu => hts u ?_
    rw [← hask ha hq]
    exact mem_append_left _ hu
  refine wrappings_induction (motive := fun f ts f' rest => (∀ u ∈ ts, g u = u) →
    wrappings ask (f.map (relabel g)) ts = .ok (f'.map (relabel g), rest.map g)) ?_ ?_ ?_ h hts
  · intro f ts ha hts
    rw [map_of_fixed hts]
    exact wrappings_of_none ha _
  · intro f ts kind q g' rest ha hq hnot hts
    rw [wrappings, ha, map_of_fixed fun u hu => hts u ((hask ha).mem_of_rest hq hu)]
    simp only [hq, andThen_ok, if_neg hnot]
    rw [← hadd (hread ha hq hts)]
    rfl
  · intro f ts kind q g' mid f' rest ha hq hlt _ ih hts
    rw [wrappings_round ha hq hlt, hadd (hread ha hq hts)]
    exact ih fun u hu => hts u ((hask ha).mem_of_rest hq hu)

theorem Leads.wrapping (hp : Leads p) (hask : LawfulForms Token.UnseenIn ask) : Leads (wrapping p ask) where
  blind g t ts f rest hg h := by
    obtain ⟨f₁, mid, h₁, h₂⟩ := wrapping_eq_ok h
    obtain ⟨hfirst, hfixed⟩ := hp.fixed hg h₁
    rw [Rule.wrapping, hfirst]
    exact wrappings_relabel (fun ha => (hask.lawful ha).keeps) h₂ hfixed
  reads := hp.reads.wrapping hask
  keeps := hp.keeps.wrapping fun ha => (hask.lawful ha).keeps

/-! ## Types -/

section

variable {inner : Rule} (hinner : Lawful inner)
include hinner

theorem leads_postfixType : Leads (postfixType inner) := by
  have hcollection : Leads (collectionType inner) := by
    refine (leads_bump.seq hinner).closing fun ts => ?_
    split
    · exact (lawful_bump.seq hinner).seq (lawful_expect "]")
    · exact lawful_expect "]"
  have hidentifier : Leads (identifierType inner) :=
    (leads_bump.seq ((lawful_genericArgumentClause hinner).optional (natural_sees "<"))).node _
  have hfail : Leads (fail "type") := ⟨fun _ _ _ _ _ _ h => (by cases h), consumes_fail _, keeps_fail _⟩
  exact (Leads.either (headBlind_sees "(") (leads_parenType hinner)
    (Leads.either (headBlind_sees "[") hcollection
    (Leads.either (headBlind_isWordAt 0) hidentifier hfail))).wrapping (lawfulForms_postfixForm hinner)

theorem headBlind_simpleType : HeadBlind (simpleType inner) := by
  have hpostfix := (leads_postfixType hinner).blind
  have hspecifier : Lookahead.HeadBlind seesTypeSpecifier :=
    ((headBlind_textAt 0 typeSpecifiers.contains).and (headBlind_isWordAt 0)).and
      ((headBlind_isWordAt 1).or (headBlind_textAt 1 ["(", "[", "@"].contains))
  have hsome : Lookahead.HeadBlind seesSomeOrAny :=
    ((headBlind_sees "some").or (headBlind_sees "any")).and
      ((headBlind_isWordAt 1).or (headBlind_textAt 1 (· == "(")))
  have hspecifiers : HeadBlind (many seesTypeSpecifier bump) :=
    headBlind_bump.many hspecifier (fun _ _ _ hask h => consumes_bump (ne_nil_of_seesTypeSpecifier hask) h)
      keeps_bump
  have hattributes := headBlind_attributeList.optional (headBlind_seesKind .atSign)
  have hafter := (leads_bump.seq (lawful_postfixType hinner)).blind
  have hkeeps := keeps_bump.many seesTypeSpecifier
  have hkeeps' := lawful_attributeList.keeps.either keeps_nothing (seesKind .atSign)
  refine HeadBlind.either ((headBlind_seesKind .atSign).or hspecifier) ?_
    (HeadBlind.either hsome (hafter.node _) (HeadBlind.either (headBlind_sees "~") (hafter.node _) hpostfix))
  exact ((hspecifiers.seq hattributes hkeeps hkeeps').seq hpostfix (hkeeps.seq hkeeps')
    (lawful_postfixType hinner).keeps).node _

end

/-- **No type sees the gap before its first token.** -/
theorem headBlind_type (n : Nat) : HeadBlind (type n) := by
  cases n with
  | zero =>
    intro g t ts f rest _ h
    cases h
  | succ n =>
    have hlawful := lawful_type n
    have hsimple : Leads (simpleType (type n)) :=
      ⟨headBlind_simpleType hlawful, consumes_simpleType hlawful, (lawful_simpleType hlawful).keeps⟩
    exact (hsimple.wrapping (lawfulForms_compositionForm hlawful)).blind

/-- **A type is all of a text that has its tokens**, whatever stood before it. -/
theorem soleType_of_readAsType {u : Tree} {t : Token} {ts : List Token} (h : u.ReadAsType)
    (htokens : u.tokens = t :: ts) (hg : Token.Regap g t ts) :
    soleType (g t :: ts) = .ok ([u.relabel g], []) := by
  obtain ⟨n, hn, us, rest, hlex, hok⟩ := h
  have hagain := type_alone hlex hn hok
  rw [forestTokens_singleton, htokens] at hagain
  exact soleType_of_type (headBlind_type nestingLimit hg hagain)

end Rule

/-- **What a function type consists of**, with the effects and the result as they were read. -/
theorem exists_signature {cs : List Tree} (h : Original .functionType cs) :
    ∃ opening list closing effects arrow result,
      cs = .token opening :: .node .tupleTypeElementList list :: .token closing ::
        (effects ++ [.token arrow, result]) ∧
      opening.text = "(" ∧ closing.text = ")" ∧ arrow.text = "->" ∧ result.isType = true ∧ result.ReadAsType ∧
      (∀ u ∈ effects, u.isType = false) ∧
      ∃ us left, (∀ t ∈ us, t.Lexical) ∧ optional seesEffect effectSpecifiers us = .ok (effects, left) := by
  obtain ⟨n, hn, ts, rest, hlex, hsees, hok⟩ := h.functionType rfl
  have htail : Token.Tail ts ts := ⟨hlex, suffix_refl ts⟩
  have hadmits : Admits ts (type n) (Traced ts n) := admits_traced (Nat.le_refl n) hn
  have hinner : Fits ts (Traced ts n) Anywhere .aType Anywhere (type n) :=
    fits_type (Nat.le_refl n) (Nat.le_of_lt hn)
  have hinputs := fits_parenInputs hadmits hinner (lawful_type n) (consumes_type n)
  obtain ⟨f₁, mid, f₂, h₁, h₂, heq⟩ := closing_eq_ok hok
  simp only [List.cons.injEq, node.injEq, and_true] at heq
  obtain ⟨hkind, rfl⟩ := heq
  split at hkind
  · next harrow =>
    rw [if_pos harrow] at h₂
    obtain ⟨f, mid₂, result, hfront, hresult, rfl⟩ := seq_eq_ok h₂
    obtain ⟨effects, mid₁, arrow, heffects, hbump, rfl⟩ := seq_eq_ok hfront
    have hkeeps := fits_effects_arrow hadmits
    have htail₁ := htail.rest hinputs.keeps h₁
    have htail₂ := htail₁.rest hkeeps.keeps heffects
    have hasked := hkeeps.fits htail₁ harrow heffects
    have hmark : Fits ts (Traced ts n) _ _ _ bump := fits_kind .arrow
    have htail₃ := htail₂.rest hmark.keeps hbump
    -- each part has its place in the layout
    obtain ⟨_, _, rfl, ⟨_, _, rfl, ⟨opening, rfl, -, hopen⟩, ⟨k, hk, list, rfl⟩⟩,
        ⟨closing, rfl, -, hclose⟩⟩ :=
      (hinputs.fits htail hsees h₁).1
    obtain ⟨a, rfl, halex, ha⟩ := (hmark.fits htail₂ hasked.2.1 hbump).1
    obtain ⟨j, hj, ds, rfl⟩ := (hinner.fits htail₃ trivial hresult).1
    cases mem_singleton.mp hk
    have htypes : ∀ k ∈ typeKinds, k.isType = true := by decide
    refine ⟨opening, list, closing, effects, a, .node j ds, by simp, by simpa [TokenClass.holds] using hopen,
      by simpa [TokenClass.holds] using hclose, ?_, htypes j hj,
      ⟨n, Nat.le_of_lt hn, _, _, fun _ ht => htail₃.mem ht, hresult⟩, ?_, _, _,
        fun _ ht => htail₁.mem ht, heffects⟩
    · exact halex.text_of_kind.1 (beq_iff_eq.mp ha)
    · intro u hu
      rcases hasked.1 with ⟨k, hk, es, rfl⟩ | rfl
      · cases mem_singleton.mp hu
        cases mem_singleton.mp hk
        rfl
      · cases hu
  · cases hkind

/-- The result of a function type was read as a type. -/
theorem readAsType_of_functionType {cs : List Tree} {u : Tree} (h : Original .functionType cs)
    (hmem : u ∈ cs) (hu : u.isType = true) : u.ReadAsType := by
  obtain ⟨opening, list, closing, effects, arrow, result, rfl, -, -, -, -, hread, hother, -⟩ :=
    exists_signature h
  -- no type stands in front of the result
  simp only [mem_cons, mem_append, not_mem_nil, or_false] at hmem
  rcases hmem with rfl | rfl | rfl | hmem | rfl | rfl
  · cases hu
  · cases hu
  · cases hu
  · exact absurd hu (Bool.eq_false_iff.mp (hother u hmem))
  · cases hu
  · exact hread

theorem Tree.ReadAsType.tokens_ne_nil {u : Tree} (h : u.ReadAsType) : u.tokens ≠ [] := by
  obtain ⟨n, -, ts, rest, -, hok⟩ := h
  have hkeeps := (lawful_type n).keeps hok
  intro hnil
  rw [forestTokens_singleton, hnil, nil_append] at hkeeps
  subst hkeeps
  by_cases hne : rest = []
  · -- at the end of the input there is no type
    subst hne
    cases n with
    | zero => cases hok
    | succ n => cases hok
  · exact Nat.lt_irrefl _ (consumes_type n hne hok)

/-- **The text of a type is that type.** -/
theorem parseType_of_readAsType {source : String} {u : Tree} {t : Token} {ts : List Token}
    (hu : u.IsPart source) (hread : u.ReadAsType) (htokens : u.tokens = t :: ts) :
    parseType u.text = .ok (.node .typeRoot [u.relabel (Token.excerpt t)]) := by
  exact parseWith_text lawful_soleType hu htokens (soleType_of_readAsType hread htokens (hu.regap htokens))

end SwiftOutline
