import SwiftOutline.Proofs.Grammar.Reread

/-!
# `RereadTypes` — types with another rest

A type is read again with another rest (`rereads_type`) if no question about how the type goes on is
answered by what is exchanged (`TypeEnds`). No rule for types asks for a token behind the type except to
find out that the type does not go on. Where a rule looks several tokens ahead it reads at least as many,
and the arrow of a function type is looked for behind the effects that are then read
(`afterEffects?_of_effects`).

There is one place where it matters what the rest is. Behind a parenthesis the rule for types looks for
an arrow past the effects of a function, and a group after `throws` that the input leaves open might be
closed by the new rest. So `TypeEnds` leaves it open which rests are fit, as long as those are that begin
with no effect, which the rest never does where more of a type is read.
-/

namespace SwiftOutline

open Lookahead SwiftOutline.Tree Rule List

variable {f : List Tree} {ts rest : List Token}

/-! ## Effects and the arrow behind them -/

variable {t : Token}

theorem afterEffects?_async (h : (t.text == "async" || t.text == "reasync") = true)
    (ts : List Token) : afterEffects? (t :: ts) = afterEffects? ts := by
  rw [afterEffects?, if_pos h]

theorem afterEffects?_group (h : ¬ (t.text == "async" || t.text == "reasync") = true)
    (hthrows : (t.text == "throws" || t.text == "rethrows") = true) {run : List Token}
    (hadjacent : seesAdjacent "(" ts = true) (hgroup : takeGroup 0 ts = some (run, rest)) :
    afterEffects? (t :: ts) = afterEffects? rest := by
  rw [afterEffects?, if_neg h, if_pos hthrows, if_pos hadjacent]
  split
  · next q hq =>
    rw [hgroup] at hq
    cases hq
    rfl
  · next hq =>
    rw [hgroup] at hq
    cases hq

theorem afterEffects?_throws (h : ¬ (t.text == "async" || t.text == "reasync") = true)
    (hthrows : (t.text == "throws" || t.text == "rethrows") = true)
    (hadjacent : ¬ seesAdjacent "(" ts = true) : afterEffects? (t :: ts) = afterEffects? ts := by
  rw [afterEffects?, if_neg h, if_pos hthrows, if_neg hadjacent]

theorem afterEffects?_stop (h : ¬ (t.text == "async" || t.text == "reasync") = true)
    (hthrows : ¬ (t.text == "throws" || t.text == "rethrows") = true) (ts : List Token) :
    afterEffects? (t :: ts) = some (t :: ts) := by
  rw [afterEffects?, if_neg h, if_neg hthrows]

/-- The search for the end of the effects that has found a token finds it whatever stands behind the token. -/
theorem afterEffects?_sameHead (h : afterEffects? ts = some rest) :
    ∃ us, ts = us ++ rest ∧ ∀ rest', SameHead rest rest' → afterEffects? (us ++ rest') = some rest' := by
  fun_induction afterEffects? ts with
  | case1 =>
    cases h
    exact ⟨[], rfl, fun rest' hsame => absurd rfl hsame.ne_nil⟩
  | case2 t ts hasync ih =>
    obtain ⟨us, rfl, hus⟩ := ih h
    refine ⟨t :: us, rfl, fun rest' hsame => ?_⟩
    rw [cons_append, afterEffects?_async hasync, hus rest' hsame]
  | case3 t ts hasync hthrows hadjacent q hq ih =>
    obtain ⟨us, hq₂, hus⟩ := ih h
    have hts := takeGroup_append hq
    refine ⟨t :: (q.1 ++ us), ?_, fun rest' hsame => ?_⟩
    · rw [cons_append, append_assoc, ← hq₂, hts]
    · have hne : q.1 ≠ [] := by
        have hlt := length_lt_of_takeGroup hq
        rw [← hts, length_append] at hlt
        exact length_pos_iff.mp (by omega)
      have hopen := (ofHead_seesAdjacent "(").same (sameHead_append hne q.2 (us ++ rest'))
      rw [hts, hadjacent] at hopen
      rw [cons_append, append_assoc, afterEffects?_group hasync hthrows hopen (takeGroup_cut hq _),
        hus rest' hsame]
  | case4 => cases h
  | case5 t ts hasync hthrows hadjacent ih =>
    obtain ⟨us, rfl, hus⟩ := ih h
    refine ⟨t :: us, rfl, fun rest' hsame => ?_⟩
    have hopen := (ofHead_seesAdjacent "(").same (hsame.prepend us)
    rw [cons_append, afterEffects?_throws hasync hthrows (hopen ▸ hadjacent), hus rest' hsame]
  | case6 t ts hasync hthrows =>
    cases h
    refine ⟨[], rfl, fun rest' hsame => ?_⟩
    obtain ⟨u, us, us', heq, rfl⟩ := hsame
    cases heq
    exact afterEffects?_stop hasync hthrows us'

/-- An arrow that is seen behind the effects is seen whatever stands behind it. -/
theorem seesFunctionArrow_of_effects {us rest' : List Token}
    (heffects : afterEffects? (us ++ rest) = some rest) (harrow : seesKind .arrow rest = true)
    (hsame : SameHead rest rest') : seesFunctionArrow (us ++ rest') = true := by
  obtain ⟨vs, hvs, hfound⟩ := afterEffects?_sameHead heffects
  rw [append_cancel_right hvs, seesFunctionArrow, hfound rest' hsame, Option.any_some,
    (ofHead_seesKind .arrow).same hsame, harrow]

/-- By induction on the effects in front of the arrow. -/
theorem grows_seesFunctionArrow : Grows seesFunctionArrow := by
  intro ts hts more
  unfold seesFunctionArrow at hts
  cases heffects : afterEffects? ts with
  | none =>
    rw [heffects] at hts
    cases hts
  | some rest =>
    rw [heffects, Option.any_some] at hts
    obtain ⟨us, rfl, -⟩ := afterEffects?_sameHead heffects
    have hne := (ofHead_seesKind .arrow).ne_nil hts
    rw [append_assoc]
    refine seesFunctionArrow_of_effects heffects hts ?_
    have hsame := sameHead_append hne [] more
    rwa [append_nil] at hsame

/-- The next token is not the text of an effect. -/
def Rule.OffEffect (ts : List Token) : Prop :=
  ["async", "reasync", "throws", "rethrows"].contains (textAt 0 ts) = false

/-- A text that is no effect begins none. -/
theorem Rule.offEffect_of_sees {text : String} (h : sees text ts = true)
    (htext : ["async", "reasync", "throws", "rethrows"].contains text = false) : OffEffect ts := by
  cases ts with
  | nil => cases h
  | cons t ts =>
    have ht : t.text = text := eq_of_beq h
    show ["async", "reasync", "throws", "rethrows"].contains t.text = false
    rw [ht]
    exact htext

/-- Where no effect comes first, an arrow that follows effects is the next token. -/
theorem Rule.OffEffect.seesFunctionArrow (h : OffEffect ts) : seesFunctionArrow ts = seesKind .arrow ts := by
  cases ts with
  | nil =>
    rw [seesFunctionArrow, afterEffects?]
    rfl
  | cons t ts =>
    have ht : t.text ∉ ["async", "reasync", "throws", "rethrows"] := by
      intro hmem
      have hnot : ["async", "reasync", "throws", "rethrows"].contains t.text = false := h
      rw [contains_iff_mem.mpr hmem] at hnot
      cases hnot
    simp only [mem_cons, not_mem_nil, or_false, not_or] at ht
    have hstop : afterEffects? (t :: ts) = some (t :: ts) :=
      afterEffects?_stop (by simp [ht]) (by simp [ht]) ts
    rw [seesFunctionArrow, hstop, Option.any_some]

namespace Rule

theorem consumes_effect : Consumes effect :=
  (consumes_bump.seq_left (lawful_group.optional (natural_seesAdjacent "("))).either consumes_bump _

/-- One effect is read as the search for the end of the effects skips it. -/
theorem afterEffects?_of_effect {mid : List Token} (hask : seesEffect ts = true)
    (h : effect ts = .ok (f, mid)) : afterEffects? ts = afterEffects? mid := by
  obtain ⟨t, ts, rfl⟩ := ofHead_seesEffect.exists_cons hask
  unfold effect either at h
  by_cases hthrows : (t.text == "throws" || t.text == "rethrows") = true
  · have hsees : seesThrows (t :: ts) = true := hthrows
    have hasync : ¬ (t.text == "async" || t.text == "reasync") = true := by
      simp only [Bool.or_eq_true, beq_iff_eq] at hthrows ⊢
      rcases hthrows with ht | ht <;> rw [ht] <;> decide
    rw [if_pos hsees] at h
    obtain ⟨f₁, tail, f₂, hbump, hgroup, rfl⟩ := seq_eq_ok h
    cases hbump
    unfold optional either at hgroup
    by_cases hadjacent : seesAdjacent "(" ts = true
    · rw [drop_succ_cons, drop_zero, if_pos hadjacent] at hgroup
      obtain ⟨run, hrun, -⟩ := group_eq_ok hgroup
      exact afterEffects?_group hasync hthrows hadjacent hrun
    · rw [drop_succ_cons, drop_zero, if_neg hadjacent] at hgroup
      cases hgroup
      exact afterEffects?_throws hasync hthrows hadjacent
  · have hsees : ¬ seesThrows (t :: ts) = true := hthrows
    rw [if_neg hsees] at h
    cases h
    -- an effect that may not name an error type is one of the other two
    have hasync : (t.text == "async" || t.text == "reasync") = true := by
      rw [seesEffect, Bool.and_eq_true] at hask
      have hmem := contains_iff_mem.mp hask.1
      simp only [Bool.or_eq_true, beq_iff_eq] at hthrows ⊢
      simp only [textAt, List.getElem?_cons_zero, Option.map_some, Option.getD_some, mem_cons,
        not_mem_nil, or_false] at hmem
      rcases hmem with ht | ht | ht
      · exact .inl ht
      · exact .inr ht
      · exact absurd ht hthrows
    exact afterEffects?_async hasync ts

/-- **The effects that are read are those that the search for an arrow skips.** -/
theorem afterEffects?_of_effects (hlex : ∀ t ∈ ts, t.Lexical)
    (h : many seesEffect effect ts = .ok (f, rest)) : afterEffects? ts = some rest := by
  refine many_induction (motive := fun ts _ rest => (∀ t ∈ ts, t.Lexical) → afterEffects? ts = some rest)
    ?_ ?_ ?_ h hlex
  · intro ts hask hlex
    cases ts with
    | nil => rw [afterEffects?]
    | cons t ts =>
      -- a token with the text of an effect is a word
      have hnot : t.text ∉ ["async", "reasync", "throws", "rethrows"] := by
        intro hmem
        have hword : t.isWord = true := by
          have hlexical := hlex t mem_cons_self
          simp only [mem_cons, not_mem_nil, or_false] at hmem
          rcases hmem with ht | ht | ht | ht <;> exact hlexical.isWord_eq (by rw [ht]; rfl)
        have hyes : seesEffect (t :: ts) = true := by
          rw [seesEffect, Bool.and_eq_true]
          exact ⟨contains_iff_mem.mpr hmem, hword⟩
        rw [hyes] at hask
        cases hask
      simp only [mem_cons, not_mem_nil, or_false] at hnot
      refine afterEffects?_stop ?_ ?_ ts
      · rw [Bool.or_eq_true, beq_iff_eq, beq_iff_eq]
        rintro (ht | ht)
        · exact hnot (.inl ht)
        · exact hnot (.inr (.inl ht))
      · rw [Bool.or_eq_true, beq_iff_eq, beq_iff_eq]
        exact fun ht => hnot (.inr (.inr ht))
  · intro ts f rest hask hok hnot _
    exact absurd (consumes_effect (ofHead_seesEffect.ne_nil hask) hok) hnot
  · intro ts f mid f' rest hask hok _ _ ih hlex
    rw [afterEffects?_of_effect hask hok]
    exact ih fun t ht => hlex t (lawful_effect.keeps.mem_of_rest hok ht)

/-- A list that is read only where it is asked for leaves what the list would leave. -/
theorem many_of_optional {ask : Lookahead} {kind : NodeKind} {p : Rule}
    (h : optional ask (node kind (many ask p)) ts = .ok (f, rest)) :
    ∃ cs, many ask p ts = .ok (cs, rest) := by
  unfold optional either at h
  cases hask : ask ts with
  | true =>
    rw [if_pos hask] at h
    obtain ⟨cs, hcs, -⟩ := node_eq_ok h
    exact ⟨cs, hcs⟩
  | false =>
    rw [hask, if_neg Bool.false_ne_true] at h
    cases h
    exact ⟨[], many_of_not hask⟩

theorem afterEffects?_of_optional (hlex : ∀ t ∈ ts, t.Lexical)
    (h : optional seesEffect effectSpecifiers ts = .ok (f, rest)) : afterEffects? ts = some rest := by
  obtain ⟨cs, hcs⟩ := many_of_optional h
  exact afterEffects?_of_effects hlex hcs

theorem grows_seesTypeSpecifier : Grows seesTypeSpecifier :=
  ((grows_textAt 0 typeSpecifiers.contains rfl).and ofHead_seesWord.grows).and
    ((grows_isWordAt 1).or (grows_textAt 1 ["(", "[", "@"].contains rfl))

theorem within_seesTypeSpecifier : Within 2 seesTypeSpecifier :=
  (((within_textAt 0 typeSpecifiers.contains).mono (Nat.le_succ 1)).and
    (ofHead_seesWord.within.mono (Nat.le_succ 1))).and
    ((within_isWordAt 1).or (within_textAt 1 ["(", "[", "@"].contains))

theorem ne_nil_of_seesTypeSpecifier (h : seesTypeSpecifier ts = true) : ts ≠ [] := by
  rintro rfl
  cases h

theorem grows_seesSomeOrAny : Grows seesSomeOrAny :=
  ((ofHead_sees "some").or (ofHead_sees "any")).grows.and
    ((grows_isWordAt 1).or (grows_textAt 1 (· == "(") rfl))

theorem within_seesSomeOrAny : Within 2 seesSomeOrAny :=
  (((ofHead_sees "some").or (ofHead_sees "any")).within.mono (Nat.le_succ 1)).and
    ((within_isWordAt 1).or (within_textAt 1 (· == "(")))

/-! ## What a type does not go on with -/

/-- **What is exchanged does not answer how a type goes on.** A question whether the next token is one
that a type goes on with keeps its no. A rest that has `T` is fit behind a type: at least every one that
begins with no effect, and only where no arrow is seen that was not seen before. -/
structure TypeEnds (all : List Token) (E T : Exchange) : Prop where
  sees : ∀ {text}, text ∉ [",", ")", "=", "...", "#endif"] → Quiet E (sees text)
  seesAdjacent : ∀ {text}, text ∉ [",", ")", "=", "...", "#endif"] → Quiet E (seesAdjacent text)
  seesKind : ∀ {kind}, kind ∉ [TokenKind.punct, .ellipsis, .poundDirective] → Quiet E (seesKind kind)
  effect : Quiet E seesEffect
  specifier : Quiet E seesTypeSpecifier
  someOrAny : Quiet E seesSomeOrAny
  member : Quiet E fun ts => SwiftOutline.sees "." ts && isWordAt 1 ts
  qualified : Quiet E fun ts => SwiftOutline.seesAdjacent "." ts && isWordAt 1 ts
  label : Quiet E fun ts => seesWord ts && textAt 1 ts == ":"
  labels : Quiet E fun ts => seesWord ts && isWordAt 1 ts && textAt 2 ts == ":"
  offEffect : ∀ {ts ts'}, Exchanged E ts ts' → OffEffect ts → T ts ts'
  arrow : ∀ {ts ts'}, Token.Tail all ts → Exchanged E ts ts' → T ts ts' → seesFunctionArrow ts = false →
    seesFunctionArrow ts' = false

/-! ## Clauses -/

theorem consumes_declAttribute : Consumes declAttribute :=
  (((consumes_bump.seq_left (lawful_expectWord _)).seq_left
    ((lawful_bumps 2).many ((natural_seesAdjacent ".").and (natural_isWordAt 1)))).seq_left
    ((lawful_group.node _).optional (natural_seesAdjacent "("))).node _

variable {n : Nat}

theorem length_of_isWordAt (h : isWordAt n ts = true) : n + 1 ≤ ts.length := by
  by_cases hn : n < ts.length
  · exact hn
  · rw [isWordAt, List.getElem?_eq_none (Nat.not_lt.mp hn)] at h
    cases h

/-- Behind an entry is a comma or the end. -/
theorem sees_of_separator {closer what : String}
    (h : either (sees ",") bump (require (sees closer) what nothing) ts = .ok (f, rest)) :
    sees "," ts = true ∨ sees closer ts = true := by
  unfold either at h
  split at h
  · next hcomma => exact .inl hcomma
  · unfold require either at h
    split at h
    · next hclose => exact .inr hclose
    · cases h

theorem length_of_textAt {text : String} (hne : text ≠ "") (h : (textAt n ts == text) = true) :
    n + 1 ≤ ts.length := by
  by_cases hn : n < ts.length
  · exact hn
  · rw [textAt, List.getElem?_eq_none (Nat.not_lt.mp hn)] at h
    exact absurd (eq_of_beq h).symm hne

theorem offEffect_of_separator {closer what : String}
    (hcloser : ["async", "reasync", "throws", "rethrows"].contains closer = false)
    (h : either (sees ",") bump (require (sees closer) what nothing) ts = .ok (f, rest)) : OffEffect ts := by
  rcases sees_of_separator h with hsees | hsees
  · exact offEffect_of_sees hsees (by decide)
  · exact offEffect_of_sees hsees hcloser

/-- What follows an element begins with no effect. -/
theorem offEffect_of_elementRest (hlex : ∀ t ∈ ts, t.Lexical)
    (h : elementRest ts = .ok (f, rest)) : OffEffect ts := by
  obtain ⟨f', mid', f₃, h', h₃, rfl⟩ := seq_eq_ok h
  obtain ⟨f₁, mid, f₂, h₁, h₂, rfl⟩ := seq_eq_ok h'
  unfold optional either at h₁ h₂
  split at h₁
  · next hsees =>
    obtain ⟨t, ts, rfl⟩ := (ofHead_seesKind .ellipsis).exists_cons hsees
    have htext : t.text = "..." :=
      (Token.Lexical.text_of_kind (hlex t mem_cons_self)).2 (eq_of_beq hsees)
    have hdots : sees "..." (t :: ts) = true := beq_iff_eq.mpr htext
    exact offEffect_of_sees hdots (by decide)
  · cases h₁
    split at h₂
    · next hsees => exact offEffect_of_sees hsees (by decide)
    · cases h₂
      exact offEffect_of_separator (by decide) h₃

theorem offEffect_of_expect {text : String}
    (htext : ["async", "reasync", "throws", "rethrows"].contains text = false)
    (h : expect text ts = .ok (f, rest)) : OffEffect ts := by
  unfold expect require either at h
  split at h
  · next hsees => exact offEffect_of_sees hsees htext
  · cases h

section

variable {all : List Token} {E T fit : Exchange} {pre : List Token → Prop}

theorem rereads_initializerClause :
    Rereads all E (Asked (sees "=")) OffBraceHead initializerClause initializerClause :=
  ((rereads_bump (ofHead_sees "=")).andThen ((rereads_exprRun.nonempty _).node _)).node _

/-- A separator is read, or the token that ends the list must be left by the exchange. -/
theorem rereads_separator (closer what : String) :
    Rereads all E pre SameHead (either (sees ",") bump (require (sees closer) what nothing))
      (either (sees ",") bump (require (sees closer) what nothing)) := by
  have hclose : Rereads all E pre SameHead (require (sees closer) what nothing)
      (require (sees closer) what nothing) :=
    rereads_nothing.either_same (rereads_fail what _) (ofHead_sees closer) fun _ _ => id
  exact (rereads_bump (ofHead_sees ",")).either_same hclose (ofHead_sees ",") fun _ _ => id

/-- By `rereads_separator`, behind the ellipsis and the value. -/
theorem rereads_elementRest : Rereads all E pre SameHead elementRest elementRest := by
  have hellipsis : Rereads all E pre SameHead (optional (seesKind .ellipsis) bump)
      (optional (seesKind .ellipsis) bump) :=
    (rereads_bump (ofHead_seesKind .ellipsis)).either_same rereads_nothing
      (ofHead_seesKind .ellipsis) fun _ _ => id
  have hvalue : Rereads all E Anywhere OffBraceHead (optional (sees "=") initializerClause)
      (optional (sees "=") initializerClause) :=
    rereads_initializerClause.either_same rereads_nothing (ofHead_sees "=") fun _ _ => OffBraceHead.sameHead
  refine (hellipsis.followed hvalue ?_).followed (rereads_separator ")" _) ?_
  · intro ts f rest rest' _ h _ hrest
    rw [← hvalue.keeps h]
    exact hrest.sameHead.prepend _
  · -- the separator is a comma or stands before a parenthesis
    intro ts f rest rest' _ h _ hrest
    have hsame : SameHead ts (forestTokens f ++ rest') := by
      rw [← (lawful_separator ")" _).keeps h]
      exact hrest.prepend _
    obtain ⟨t, us, us', rfl, hts'⟩ := hsame
    refine ⟨t, us, us', rfl, hts', ?_⟩
    rintro htext
    rcases sees_of_separator h with hsees | hsees
    · exact absurd ((eq_of_beq hsees).symm.trans htext) (by decide)
    · exact absurd ((eq_of_beq hsees).symm.trans htext) (by decide)

theorem length_bumps {n : Nat} (h : bumps n ts = .ok (f, rest))
    (hn : n ≤ ts.length) : n ≤ (forestTokens f).length := by
  rw [(bumps_eq_ok h).1, forestTokens_map_token]
  exact Nat.le_of_eq (length_take_of_le hn).symm

variable (hends : TypeEnds all E T)
include hends

theorem rereads_declAttribute : Rereads all E (Asked (seesKind .atSign)) fit declAttribute declAttribute := by
  refine ((((rereads_bump (ofHead_seesKind .atSign)).andThen (rereads_expectWord _)).andThen
    (rereads_many_bumps ?_ hends.qualified ?_)).andThen
    ((rereads_group.node _).optional (ofHead_seesAdjacent "(") (hends.seesAdjacent (by decide))
      (consumes_group.node _))).node _
  · exact ((ofHead_seesAdjacent ".").within.mono (Nat.le_succ 1)).and (within_isWordAt 1)
  · intro ts hask
    rw [Bool.and_eq_true] at hask
    exact length_of_isWordAt hask.2

theorem rereads_attributes : Rereads all E pre fit (optional (seesKind .atSign) attributeList)
    (optional (seesKind .atSign) attributeList) :=
  (rereads_declAttribute hends).optional_list (ofHead_seesKind .atSign) (hends.seesKind (by decide))
    consumes_declAttribute _

theorem rereads_effect : Rereads all E (Asked seesEffect) fit effect effect := by
  have hthrows : Quiet E seesThrows := (hends.sees (by decide)).or (hends.sees (by decide))
  exact ((rereads_bump ofHead_seesThrows).andThen
    (rereads_group.optional (ofHead_seesAdjacent "(") (hends.seesAdjacent (by decide))
      consumes_group)).either_head
    (rereads_bump ofHead_seesEffect) ofHead_seesThrows hthrows
    (consumes_bump.seq_left (lawful_group.optional (natural_seesAdjacent "(")))

theorem rereads_effects : Rereads all E pre fit (optional seesEffect effectSpecifiers)
    (optional seesEffect effectSpecifiers) :=
  (rereads_effect hends).optional_list ofHead_seesEffect hends.effect consumes_effect _

/-- Labels are told by a colon at a fixed place. -/
theorem rereads_elementLabels : Rereads all E pre fit elementLabels elementLabels := by
  have hone : ∀ ⦃ts⦄, (seesWord ts && textAt 1 ts == ":") = true → 2 ≤ ts.length := fun ts hask => by
    rw [Bool.and_eq_true] at hask
    exact length_of_textAt (by decide) hask.2
  have htwo : ∀ ⦃ts⦄, (seesWord ts && isWordAt 1 ts && textAt 2 ts == ":") = true →
      3 ≤ ts.length := fun ts hask => by
    rw [Bool.and_eq_true] at hask
    exact length_of_textAt (by decide) hask.2
  refine (rereads_bumps hone).either_within
    ((rereads_bumps htwo).either_within rereads_nothing 3 ?_ hends.labels ?_)
    2 ?_ hends.label ?_
  · exact ((ofHead_seesWord.within.mono (by decide)).and ((within_isWordAt 1).mono (by decide))).and
      (within_textAt 2 (· == ":"))
  · intro ts f rest hask h
    exact length_bumps h (htwo hask)
  · exact (ofHead_seesWord.within.mono (by decide)).and (within_textAt 1 (· == ":"))
  · intro ts f rest hask h
    exact length_bumps h (hone hask)

end

/-! ## Types -/

/-- The arrow that was seen behind the effects is read with them, so it is seen with another rest. -/
theorem seesFunctionArrow_again {p : Rule} (hlex : ∀ t ∈ ts, t.Lexical)
    (h : (optional seesEffect effectSpecifiers ++ bump ++ p : Rule) ts = .ok (f, rest))
    (harrow : seesFunctionArrow ts = true) (rest' : List Token) :
    seesFunctionArrow (forestTokens f ++ rest') = true := by
  obtain ⟨f', mid', f₃, h', -, rfl⟩ := seq_eq_ok h
  obtain ⟨f₁, mid, f₂, h₁, h₂, rfl⟩ := seq_eq_ok h'
  have heffects := afterEffects?_of_optional hlex h₁
  rw [seesFunctionArrow, heffects, Option.any_some] at harrow
  obtain ⟨a, mid, rfl⟩ := (ofHead_seesKind .arrow).exists_cons harrow
  cases h₂
  have hkeeps := (lawful_effectSpecifiers.optional natural_seesEffect).keeps h₁
  rw [← hkeeps] at heffects
  have hinput : forestTokens (f₁ ++ [token a] ++ f₃) ++ rest' =
      forestTokens f₁ ++ a :: (forestTokens f₃ ++ rest') := by
    rw [forestTokens_append, forestTokens_append, forestTokens_singleton, tokens_token]
    simp only [append_assoc, cons_append, nil_append]
  show seesFunctionArrow (forestTokens (f₁ ++ [token a] ++ f₃) ++ rest') = true
  rw [hinput]
  exact seesFunctionArrow_of_effects heffects harrow ⟨a, _, _, rfl, rfl⟩

section

variable {inner : Rule} (hlaw : Lawful inner) (hconsumes : Consumes inner)
include hlaw

include hconsumes in
theorem consumes_tupleElement (kind : NodeKind) : Consumes (tupleElement inner kind) :=
  ((Consumes.seq_right lawful_elementLabels hlaw hconsumes).seq_left lawful_elementRest).node _

/-- Each form reads a token. -/
theorem progress_postfixForm {kind : NodeKind} {q : Rule}
    (h : postfixForm inner ts = some (kind, q)) (hq : q ts = .ok (f, rest)) : rest.length < ts.length := by
  unfold postfixForm at h
  split at h
  · next hsees =>
    cases h
    exact consumes_bump ((ofHead_sees "?").ne_nil hsees) hq
  split at h
  · next hsees =>
    cases h
    exact consumes_bump ((ofHead_sees "!").ne_nil hsees) hq
  split at h
  · next hsees =>
    rw [Bool.and_eq_true] at hsees
    have hne := (ofHead_sees ".").ne_nil hsees.1
    split at h
    · cases h
      exact consumes_bumps 1 hne hq
    · cases h
      exact (consumes_bumps 1).seq_left
        ((lawful_genericArgumentClause hlaw).optional (natural_sees "<")) hne hq
  · cases h

/-- A type with its postfix forms reads a token. -/
theorem length_lt_of_postfixType (h : postfixType inner ts = .ok (f, rest)) : rest.length < ts.length := by
  refine consumes_postfixType hlaw ?_ h
  rintro rfl
  obtain ⟨f₁, mid, h₁, -⟩ := wrapping_eq_ok h
  cases h₁

/-- What stands in front of an attributed type, and the type, are at least two tokens. -/
theorem length_attributedType (hask : (seesKind .atSign ts || seesTypeSpecifier ts) = true)
    (h : (many seesTypeSpecifier bump ++ optional (seesKind .atSign) attributeList ++
      postfixType inner : Rule) ts = .ok (f, rest)) : 2 ≤ (forestTokens f).length := by
  have hspecifiers := (keeps_bumps 1).many seesTypeSpecifier
  have hattributes := (lawful_attributeList.optional (natural_seesKind .atSign)).keeps
  have hkeeps := (hspecifiers.seq hattributes).seq (lawful_postfixType hlaw).keeps h
  obtain ⟨f', mid', f₃, h', h₃, rfl⟩ := seq_eq_ok h
  obtain ⟨f₁, mid, f₂, h₁, h₂, rfl⟩ := seq_eq_ok h'
  have hlast := length_lt_of_postfixType hlaw h₃
  have hmid := congrArg List.length (hspecifiers h₁)
  have hmid' := congrArg List.length (hattributes h₂)
  -- a specifier or an attribute comes first
  have hfirst : mid'.length < ts.length := by
    rw [length_append] at hmid hmid'
    cases hspecifier : seesTypeSpecifier ts with
    | true =>
      have hlt := length_lt_of_many (keeps_bumps 1)
        (fun _ _ _ hyes hok => consumes_bump (ne_nil_of_seesTypeSpecifier hyes) hok) hspecifier h₁
      omega
    | false =>
      rw [hspecifier, Bool.or_false] at hask
      rw [many_of_not hspecifier] at h₁
      cases h₁
      rw [optional, either, if_pos hask] at h₂
      obtain ⟨cs, hcs, rfl⟩ := node_eq_ok h₂
      exact length_lt_of_many lawful_declAttribute.keeps
        (consumes_declAttribute.shortens (ofHead_seesKind .atSign)) hask hcs
  have hlen := congrArg List.length hkeeps
  rw [length_append] at hlen
  omega

theorem progress_compositionForm {kind : NodeKind} {q : Rule}
    (h : compositionForm inner ts = some (kind, q)) (hq : q ts = .ok (f, rest)) :
    rest.length < ts.length := by
  unfold compositionForm at h
  split at h
  · next hsees =>
    cases h
    exact length_lt_of_many (lawful_bump.seq (lawful_simpleType hlaw)).keeps
      ((consumes_bump.seq_left (lawful_simpleType hlaw)).shortens (ofHead_sees "&")) hsees hq
  · cases h

end

section

variable {all : List Token} {E T fit : Exchange} {pre : List Token → Prop} {inner inner' : Rule}
  (hends : TypeEnds all E T) (hlaw : Lawful inner) (hconsumes : Consumes inner)
  (hinner : Rereads all E Anywhere T inner inner')
include hends hlaw hconsumes hinner

omit hlaw in
/-- By `Rereads.between_head`, as `>` closes the list. -/
theorem rereads_genericArgumentClause :
    Rereads all E (Asked (sees "<")) fit (genericArgumentClause inner) (genericArgumentClause inner') := by
  have hentry : Rereads all E Before SameHead
      (node .genericArgument (inner ++ either (sees ",") bump (require (sees ">") "',' or '>'" nothing)))
      (node .genericArgument
        (inner' ++ either (sees ",") bump (require (sees ">") "',' or '>'" nothing))) := by
    refine (hinner.anywhere.followed (rereads_separator ">" _) ?_).node _
    intro ts f rest rest' _ h hx _
    exact hends.offEffect ((lawful_separator ">" _).keeps.exchanged h hx)
      (offEffect_of_separator (by decide) h)
  have hreads := (hconsumes.seq_left (lawful_separator ">" "',' or '>'")).node .genericArgument
  exact ((rereads_bump (ofHead_sees "<")).between_head hentry hreads ">" _).node _

omit hlaw hconsumes in
theorem rereads_tupleElement (kind : NodeKind) :
    Rereads all E pre SameHead (tupleElement inner kind) (tupleElement inner' kind) := by
  refine (((rereads_elementLabels hends).andThen hinner).followed rereads_elementRest ?_).node _
  intro ts f rest rest' htail h hx _
  exact hends.offEffect ((lawful_elementRest (K := Token.UnseenIn)).keeps.exchanged h hx)
    (offEffect_of_elementRest (fun _ => htail.mem) h)

omit hlaw hconsumes in
/-- The effects of a function type, its arrow, and its output. -/
theorem rereads_functionRest : Rereads all E (Asked seesFunctionArrow) T
    (optional seesEffect effectSpecifiers ++ bump ++ inner)
      (optional seesEffect effectSpecifiers ++ bump ++ inner') := by
  have harrow : Rereads all E (Asked (seesKind .arrow)) Always bump bump :=
    rereads_bump (ofHead_seesKind .arrow)
  refine Rereads.andThen ((show Rereads all E _ Always _ _ from rereads_effects hends).seq harrow ?_) hinner
  intro ts f mid g rest rest' htail hask h _ _ _
  have hsees : seesFunctionArrow ts = true := hask
  rw [seesFunctionArrow, afterEffects?_of_optional (fun _ => htail.mem) h] at hsees
  exact ⟨trivial, hsees⟩

/-- Whether an arrow follows is decided as before. -/
theorem rereads_parenType : Rereads all E (Asked (sees "(")) T (parenType inner) (parenType inner') := by
  have helement := consumes_tupleElement hlaw hconsumes .tupleTypeElement
  have hopen : Rereads all E (Asked (sees "(")) Always bump bump := rereads_bump (ofHead_sees "(")
  have hlist : Rereads all E Anywhere SameHead
      (node .tupleTypeElementList (elements (tupleElement inner .tupleTypeElement)))
      (node .tupleTypeElementList (elements (tupleElement inner' .tupleTypeElement))) :=
    ((rereads_tupleElement hends hinner .tupleTypeElement).entries helement firm_sameHead ")" "')'").node _
  have hparen : Rereads all E (Asked (sees "(")) Always
      (bump ++ node .tupleTypeElementList (elements (tupleElement inner .tupleTypeElement)) ++ bump)
      (bump ++ node .tupleTypeElementList (elements (tupleElement inner' .tupleTypeElement)) ++ bump) := by
    refine (hopen.andThen hlist).closed ")" ?_ fun t _ _ _ _ => ⟨t, _, _, rfl, rfl⟩
    intro ts f rest h
    obtain ⟨f₁, mid, f₂, -, h₂, rfl⟩ := seq_eq_ok h
    obtain ⟨cs, hcs, -⟩ := node_eq_ok h₂
    exact sees_of_entries helement hcs
  refine hparen.closing ?_ ?_
  · intro ts
    split
    · exact (rereads_functionRest hends hinner).keeps
    · exact keeps_nothing
  · intro ts f rest rest' htail h hx hrest
    refine ⟨trivial, ?_⟩
    by_cases harrow : seesFunctionArrow ts = true
    · simp only [if_pos harrow] at h ⊢
      rw [if_pos (seesFunctionArrow_again (fun _ => htail.mem) h harrow rest')]
      exact ⟨rfl, (rereads_functionRest hends hinner).again htail harrow h hx hrest⟩
    · simp only [if_neg harrow] at h ⊢
      obtain ⟨rfl, rfl⟩ := nothing_eq_ok h
      have hnone := hends.arrow htail hx hrest (Bool.eq_false_iff.mpr harrow)
      rw [forestTokens_nil, nil_append, if_neg (Bool.eq_false_iff.mp hnone)]
      exact ⟨rfl, rfl⟩

omit hconsumes in
/-- The bracket closes what is inside. -/
theorem rereads_collectionType :
    Rereads all E (Asked (sees "[")) fit (collectionType inner) (collectionType inner') := by
  have hcolon : Rereads all E (Asked (sees ":")) Always bump bump := rereads_bump (ofHead_sees ":")
  have hclose : Rereads all E Anywhere fit (expect "]") (expect "]") := rereads_expect "]"
  have hbracket {ts f rest rest'} (h : expect "]" ts = .ok (f, rest)) (hx : Exchanged E rest rest') :
      T ts (forestTokens f ++ rest') :=
    hends.offEffect ((keeps_expect "]").exchanged h hx) (offEffect_of_expect (by decide) h)
  have hdictionary : Rereads all E (Asked (sees ":")) fit (bump ++ inner ++ expect "]")
      (bump ++ inner' ++ expect "]") :=
    (hcolon.andThen hinner).followed hclose fun _ _ _ _ _ h hx _ => hbracket h hx
  refine Rereads.closing (Rereads.andThen (rereads_bump (ofHead_sees "[")) hinner) ?_ ?_
  · intro ts
    split
    · exact hdictionary.keeps
    · exact keeps_expect "]"
  · intro ts f rest rest' htail h hx hrest
    by_cases hsees : sees ":" ts = true
    · simp only [if_pos hsees] at h ⊢
      have hreads := (consumes_bump.seq_left hlaw).seq_left (lawful_expect "]")
      rw [if_pos (hdictionary.asked (ofHead_sees ":") hreads hsees h rest')]
      refine ⟨hends.offEffect (hdictionary.keeps.exchanged h hx) (offEffect_of_sees hsees (by decide)), rfl,
        ?_⟩
      exact hdictionary.again htail hsees h hx hrest
    · simp only [if_neg hsees] at h ⊢
      have hsees' := (hends.sees (by decide)).exchanged ((keeps_expect "]").exchanged h hx)
        (Bool.eq_false_iff.mpr hsees)
      rw [if_neg (Bool.eq_false_iff.mp hsees')]
      exact ⟨hbracket h hx, rfl, hclose.again htail trivial h hx hrest⟩

theorem rereads_identifierType :
    Rereads all E (Asked seesWord) fit (identifierType inner) (identifierType inner') :=
  ((rereads_bump ofHead_seesWord).andThen ((rereads_genericArgumentClause hends hconsumes hinner).optional
    (ofHead_sees "<") (hends.sees (by decide)) (consumes_genericArgumentClause hlaw))).node _

theorem rereads_primaryType : Rereads all E pre T (primaryType inner) (primaryType inner') :=
  (rereads_parenType hends hlaw hconsumes hinner).either_head
    ((rereads_collectionType hends hlaw hinner).either_head
      ((rereads_identifierType hends hlaw hconsumes hinner).require ofHead_seesWord
        (consumes_identifierType hlaw) _)
      (ofHead_sees "[") (hends.sees (by decide)) (consumes_collectionType hlaw))
    (ofHead_sees "(") (hends.sees (by decide)) (consumes_parenType hlaw)

/-- A member or a metatype is read with the two tokens that were seen. -/
theorem rereadForms_member : RereadForms all E T
    (fun ts => if sees "." ts && isWordAt 1 ts then
      some (if ["Type", "Protocol"].contains (textAt 1 ts) then (.metatypeType, bumps 2)
        else (.memberType, bumps 2 ++ optional (sees "<") (genericArgumentClause inner))) else none)
    (fun ts => if sees "." ts && isWordAt 1 ts then
      some (if ["Type", "Protocol"].contains (textAt 1 ts) then (.metatypeType, bumps 2)
        else (.memberType, bumps 2 ++ optional (sees "<") (genericArgumentClause inner'))) else none) := by
  have hlen : ∀ ⦃ts⦄, (sees "." ts && isWordAt 1 ts) = true → 2 ≤ ts.length := fun ts hask => by
    rw [Bool.and_eq_true] at hask
    exact length_of_isWordAt hask.2
  have harguments : Rereads all E Anywhere T (optional (sees "<") (genericArgumentClause inner))
      (optional (sees "<") (genericArgumentClause inner')) :=
    (rereads_genericArgumentClause hends hconsumes hinner).optional (ofHead_sees "<") (hends.sees (by decide))
      (consumes_genericArgumentClause hlaw)
  refine rereadForms_none.ahead hends.member ?_
    (((ofHead_sees ".").within.mono (Nat.le_succ 1)).and (within_isWordAt 1))
    ?_ ?_ ?_ ?_
  · intro ts ts' hask hx
    rw [Bool.and_eq_true] at hask
    exact hends.offEffect hx (offEffect_of_sees hask.1 (by decide))
  · intro us hus ts ts'
    simp only [textAt_append hus]
  · intro ts
    split <;> rfl
  · intro ts hask
    have htwo {fit} : Rereads all E (· = ts) fit (bumps 2) (bumps 2) :=
      rereads_bumps fun _ hts => hts ▸ hlen hask
    split
    · exact htwo
    · exact htwo.andThen harguments
  · intro ts f rest hask h
    split at h
    · exact length_bumps h (hlen hask)
    · obtain ⟨f₁, mid, f₂, h₁, -, rfl⟩ := seq_eq_ok h
      rw [forestTokens_append, length_append]
      exact Nat.le_add_right_of_le (length_bumps h₁ (hlen hask))

/-- One question after another (`RereadForms.ahead_head`). -/
theorem rereadForms_postfixForm : RereadForms all E T (postfixForm inner) (postfixForm inner') := by
  have hmember := rereadForms_member hends hlaw hconsumes hinner
  have hmark {next next' text kind} (hnext : RereadForms all E T next next') (htext :
      text ∉ [",", ")", "=", "...", "#endif"])
      (heffect : ["async", "reasync", "throws", "rethrows"].contains text = false) :
      RereadForms all E T (fun ts => if sees text ts then some (kind, bump) else next ts)
        (fun ts => if sees text ts then some (kind, bump) else next' ts) :=
    hnext.ahead_head (hends.sees htext) (fun _ _ hsees hx =>
      hends.offEffect hx (offEffect_of_sees hsees heffect))
      (ofHead_sees text) (rereads_bump (ofHead_sees text))
      fun _ _ _ hsees h => consumes_bump ((ofHead_sees text).ne_nil hsees) h
  unfold postfixForm
  simp only [← apply_ite some]
  exact hmark (hmark hmember (by decide) (by decide)) (by decide) (by decide)

theorem rereads_postfixType : Rereads all E pre T (postfixType inner) (postfixType inner') :=
  (rereads_primaryType hends hlaw hconsumes hinner).wrapping
    (rereadForms_postfixForm hends hlaw hconsumes hinner)

omit hlaw hconsumes hinner in
/-- A specifier asks for a token behind it, which the exchange must leave. -/
theorem rereads_typeSpecifiers :
    Rereads all E pre SameHead (many seesTypeSpecifier bump) (many seesTypeSpecifier bump) := by
  have hbump : Rereads all E (Asked seesTypeSpecifier) SameHead bump bump :=
    rereads_bumps fun _ hask => length_pos_iff.mpr (ne_nil_of_seesTypeSpecifier hask)
  refine hbump.many ?_ ?_ ?_ ?_
  · intro ts f rest hask h
    exact consumes_bump (ne_nil_of_seesTypeSpecifier hask) h
  · intro ts f rest rest' hask h _ hrest
    obtain ⟨t, ts, rfl⟩ := exists_cons_of_ne_nil (ne_nil_of_seesTypeSpecifier hask)
    cases h
    exact (within_seesTypeSpecifier.same_second t hrest).trans hask
  · intro rest rest' hask hx _
    exact hends.specifier.exchanged hx hask
  · intro ts f rest rest' h _ hrest
    rw [← (keeps_bumps 1).many seesTypeSpecifier h]
    exact hrest.prepend _

/-- By cases on what stands in front of the type. -/
theorem rereads_simpleType : Rereads all E pre T (simpleType inner) (simpleType inner') := by
  have hpostfix : Rereads all E Anywhere T (postfixType inner) (postfixType inner') :=
    rereads_postfixType hends hlaw hconsumes hinner
  have hsome : Rereads all E (Asked seesSomeOrAny) Always bump bump := rereads_bumps fun ts hts => by
    refine length_pos_iff.mpr ?_
    rintro rfl
    cases hts
  have htilde : Rereads all E (Asked (sees "~")) Always bump bump := rereads_bump (ofHead_sees "~")
  refine Rereads.either_within (Rereads.node ?_ _)
    (((hsome.andThen hpostfix).node _).either_within
      (((htilde.andThen hpostfix).node _).either_head hpostfix.anywhere (ofHead_sees "~")
        (hends.sees (by decide)) ?_)
      2 within_seesSomeOrAny hends.someOrAny ?_)
    2 (((ofHead_seesKind .atSign).within.mono (Nat.le_succ 1)).or within_seesTypeSpecifier)
    ((hends.seesKind (by decide)).or hends.specifier) ?_
  · -- attributes and specifiers
    have hattributes : Rereads all E Anywhere SameHead (optional (seesKind .atSign) attributeList)
        (optional (seesKind .atSign) attributeList) := rereads_attributes hends
    refine ((rereads_typeSpecifiers hends).followed hattributes ?_).seq_reading hpostfix fun _ _ _ h =>
      length_lt_of_postfixType hlaw h
    intro ts f rest rest' _ h _ hrest
    rw [← hattributes.keeps h]
    exact hrest.prepend _
  · exact (consumes_bump.seq_left (lawful_postfixType hlaw)).node _
  · -- `some` and `any`
    intro ts f rest hask h
    have hkeeps := (lawful_bump.seq (lawful_postfixType hlaw)).node .someOrAnyType |>.keeps h
    obtain ⟨cs, hcs, rfl⟩ := node_eq_ok h
    obtain ⟨f₁, mid, f₂, h₁, h₂, rfl⟩ := seq_eq_ok hcs
    have hlast := length_lt_of_postfixType hlaw h₂
    have hne : ts ≠ [] := by
      rintro rfl
      cases hask
    have hfirst := consumes_bump hne h₁
    have hlen := congrArg List.length hkeeps
    rw [length_append] at hlen
    omega
  · intro ts f rest hask h
    obtain ⟨cs, hcs, rfl⟩ := node_eq_ok h
    rw [forestTokens_singleton, tokens_node]
    exact length_attributedType hlaw hask hcs

/-- An `&` is seen as before. -/
theorem rereadForms_compositionForm :
    RereadForms all E T (compositionForm inner) (compositionForm inner') := by
  have hand : Rereads all E (Asked (sees "&")) Always bump bump := rereads_bump (ofHead_sees "&")
  have hoperand := hand.andThen (rereads_simpleType hends hlaw hconsumes hinner)
  have hreads := consumes_bump.seq_left (lawful_simpleType hlaw)
  have hfits : ∀ ⦃ts ts'⦄, sees "&" ts = true → Exchanged E ts ts' → T ts ts' :=
    fun _ _ hsees hx => hends.offEffect hx (offEffect_of_sees hsees (by decide))
  refine rereadForms_none.ahead_head (hends.sees (by decide)) hfits (ofHead_sees "&")
    (hoperand.many_reading (ofHead_sees "&") (hends.sees (by decide)) hreads ?_) ?_
  · -- another operand begins with an ampersand
    intro ts f rest rest' h hx hrest
    cases hsees : sees "&" ts with
    | true => exact hfits hsees ((hoperand.keeps.many _).exchanged h hx)
    | false =>
      rw [many_of_not hsees] at h
      cases h
      exact hrest
  · intro ts f rest hsees h
    exact length_lt_of_many hoperand.keeps (hreads.shortens (ofHead_sees "&")) hsees h

theorem rereads_typeBody : Rereads all E pre T (typeBody inner) (typeBody inner') :=
  (rereads_simpleType hends hlaw hconsumes hinner).wrapping
    (rereadForms_compositionForm hends hlaw hconsumes hinner)

end

/-- **A type is read again where no question about how it goes on is answered otherwise**, also with more
levels to spare. -/
theorem rereads_type {all : List Token} {E T : Exchange} (hends : TypeEnds all E T) {m : Nat}
    (h : m ≤ n) : Rereads all E Anywhere T (type m) (type n) := by
  induction m generalizing n with
  | zero => exact rereads_tooDeep _
  | succ m ih =>
    cases n with
    | zero => exact absurd h (Nat.not_succ_le_zero m)
    | succ n =>
      exact rereads_typeBody hends (lawful_type m) (consumes_type m) (ih (Nat.le_of_succ_le_succ h))

end Rule

end SwiftOutline
