import SwiftOutline.Proofs.Grammar.RereadTypes

/-!
# `Introducer` — looking for a declaration and reading one

Whether a declaration begins here is found by looking past attributes and modifiers to a keyword; then the
same tokens are read. Looking and reading agree: what is left behind the attributes and modifiers that are
read is what the search finds behind them.
-/

namespace SwiftOutline

open Lookahead SwiftOutline.Tree List

variable {f : List Tree} {ts rest : List Token}

/-! ## Attributes -/

namespace Rule

/-- The parts of a dotted name are read as they are skipped. -/
theorem afterDottedName_of_parts
    (h : many (fun ts => seesAdjacent "." ts && isWordAt 1 ts) (bumps 2) ts = .ok (f, rest)) :
    afterDottedName ts = rest := by
  refine many_induction (motive := fun ts _ rest => afterDottedName ts = rest) ?_ ?_ ?_ h
  · intro ts hask
    rcases ts with _ | ⟨dot, _ | ⟨word, rest⟩⟩
    · rfl
    · rfl
    · have hnot : ¬ (dot.text == "." && word.isWord && dot.isAdjacent) = true := by
        have hask' : ¬ ((dot.text == "." && dot.isAdjacent) && word.isWord) = true :=
          Bool.eq_false_iff.mp hask
        rwa [Bool.and_right_comm] at hask'
      rw [afterDottedName, if_neg hnot]
  · intro ts f rest hask hok hnot
    rw [Bool.and_eq_true] at hask
    exact absurd (consumes_bumps 1 ((ofHead_seesAdjacent ".").ne_nil hask.1) hok) hnot
  · intro ts f mid f' rest hask hok _ _ ih
    rcases ts with _ | ⟨dot, _ | ⟨word, tail⟩⟩
    · cases hask
    · rw [Bool.and_eq_true] at hask
      cases hask.2
    · cases hok
      have hyes : (dot.text == "." && word.isWord && dot.isAdjacent) = true := by
        rw [Bool.and_right_comm]
        exact hask
      rw [afterDottedName, if_pos hyes]
      exact ih

theorem expectWord_eq_ok {what : String} (h : expectWord what ts = .ok (f, rest)) :
    ∃ t, ts = t :: rest ∧ t.isWord = true ∧ f = [.token t] := by
  unfold expectWord require either at h
  split at h
  · next hword =>
    obtain ⟨t, ts, rfl⟩ := ofHead_seesWord.exists_cons hword
    cases h
    exact ⟨t, rfl, hword, rfl⟩
  · cases h

theorem afterAttribute?_of_declAttribute
    (hask : seesKind .atSign ts = true) (h : declAttribute ts = .ok (f, rest)) :
    afterAttribute? ts = some rest := by
  obtain ⟨sign, ts, rfl⟩ := (ofHead_seesKind .atSign).exists_cons hask
  obtain ⟨cs, hcs, -⟩ := node_eq_ok h
  obtain ⟨_, mid, _, h₁, hgroup, -⟩ := seq_eq_ok hcs
  obtain ⟨_, mid', _, h₂, hparts, -⟩ := seq_eq_ok h₁
  obtain ⟨_, tail, _, hsign, hword, -⟩ := seq_eq_ok h₂
  cases hsign
  obtain ⟨word, hword, hisWord, -⟩ := expectWord_eq_ok hword
  rw [drop_succ_cons, drop_zero] at hword
  subst hword
  have hdotted := afterDottedName_of_parts hparts
  rw [afterAttribute?, if_pos hisWord, hdotted]
  unfold optional either at hgroup
  by_cases hadjacent : seesAdjacent "(" mid = true
  · rw [if_pos hadjacent] at hgroup ⊢
    obtain ⟨cs, hcs, -⟩ := node_eq_ok hgroup
    obtain ⟨run, hrun, -⟩ := group_eq_ok hcs
    rw [hrun]
    rfl
  · rw [if_neg hadjacent] at hgroup ⊢
    cases hgroup
    rfl

theorem afterAttributes?_of_attributes
    (h : many (seesKind .atSign) declAttribute ts = .ok (f, rest)) : afterAttributes? ts = some rest := by
  refine many_induction (motive := fun ts _ rest => afterAttributes? ts = some rest) ?_ ?_ ?_ h
  · intro ts hask
    exact afterAttributes?_of_not hask
  · intro ts f rest hask hok hnot
    exact absurd (consumes_declAttribute ((ofHead_seesKind .atSign).ne_nil hask) hok) hnot
  · intro ts f mid f' rest hask hok _ _ ih
    rw [afterAttributes?_of_some hask (afterAttribute?_of_declAttribute hask hok), ih]

/-! ## Modifiers -/

/-- The next tokens are a modifier. -/
abbrev isModifier : Lookahead := fun ts => (modifierLength? ts).isSome

theorem declModifier_eq_ok {n : Nat} (hn : modifierLength? ts = some n)
    (h : declModifier ts = .ok (f, rest)) :
    f = [.node .declModifier ((ts.take n).map .token)] ∧ rest = ts.drop n := by
  obtain ⟨cs, hcs, rfl⟩ := node_eq_ok h
  rw [hn] at hcs
  cases hcs
  exact ⟨rfl, rfl⟩

theorem length_lt_of_declModifier (hask : isModifier ts = true)
    (h : declModifier ts = .ok (f, rest)) : rest.length < ts.length := by
  obtain ⟨n, hn⟩ := Option.isSome_iff_exists.mp hask
  obtain ⟨-, rfl⟩ := declModifier_eq_ok hn h
  have hpos := pos_of_modifierLength? hn
  rw [length_drop]
  omega

theorem afterModifiers_of_modifiers
    (h : many isModifier declModifier ts = .ok (f, rest)) : afterModifiers ts = rest := by
  refine many_induction (motive := fun ts _ rest => afterModifiers ts = rest) ?_ ?_ ?_ h
  · intro ts hask
    exact afterModifiers_of_none (Option.not_isSome_iff_eq_none.mp (Bool.eq_false_iff.mp hask))
  · intro ts f rest hask hok hnot
    exact absurd (length_lt_of_declModifier hask hok) hnot
  · intro ts f mid f' rest hask hok _ _ ih
    obtain ⟨n, hn⟩ := Option.isSome_iff_exists.mp hask
    obtain ⟨-, rfl⟩ := declModifier_eq_ok hn hok
    rw [afterModifiers_of_some hn, ih]

end Rule

/-! ### What a modifier looks at -/

/-- The next token is a word that modifies declarations. -/
def seesModifierWord : Lookahead := fun ts => seesWord ts && modifierWords.contains (textAt 0 ts)

/-- The next token is `class` and not a modifier of what follows it. -/
def seesPlainClass : Lookahead := fun ts =>
  textAt 0 ts == "class" &&
    !(modifierWords.contains (textAt 1 ts) || classMemberKeywords.contains (textAt 1 ts))

/-- The next four tokens are a modifier with its detail. -/
def seesDetail : Lookahead := fun ts =>
  detailedModifiers.contains (textAt 0 ts) && textAt 1 ts == "(" &&
    modifierDetails.contains (textAt 2 ts) && textAt 3 ts == ")"

theorem modifierLength?_eq (ts : List Token) :
    modifierLength? ts =
      if !seesModifierWord ts then none else if seesPlainClass ts then none
      else if seesDetail ts then some 4 else some 1 := rfl

theorem ofHead_seesModifierWord : OfHead seesModifierWord := by
  refine ofHead_seesWord.and (b := fun ts => modifierWords.contains (textAt 0 ts))
    ⟨fun t => modifierWords.contains t.text, fun ts => ?_⟩
  cases ts with
  | nil => rfl
  | cons t ts => rfl

theorem within_seesPlainClass : Within 2 seesPlainClass := by
  intro ts hts more
  unfold seesPlainClass
  rw [textAt_append (Nat.lt_of_lt_of_le Nat.zero_lt_two hts), textAt_append hts]

theorem within_seesDetail : Within 4 seesDetail :=
  ((((within_textAt 0 detailedModifiers.contains).mono (by decide)).and
    ((within_textAt 1 (· == "(")).mono (by decide))).and
    ((within_textAt 2 modifierDetails.contains).mono (by decide))).and (within_textAt 3 (· == ")"))

variable {n : Nat} {start : List Token}

/-- The three questions behind a modifier of `n` tokens. -/
theorem modifierLength?_eq_some :
    modifierLength? ts = some n ↔ seesModifierWord ts = true ∧ seesPlainClass ts = false ∧
      ((seesDetail ts = true ∧ n = 4) ∨ (seesDetail ts = false ∧ n = 1)) := by
  rw [modifierLength?_eq]
  cases seesModifierWord ts <;> cases seesPlainClass ts <;> cases seesDetail ts <;>
    simp [eq_comm]

theorem modifierLength?_eq_none :
    modifierLength? ts = none ↔ seesModifierWord ts = false ∨ seesPlainClass ts = true := by
  rw [modifierLength?_eq]
  cases seesModifierWord ts <;> cases seesPlainClass ts <;> cases seesDetail ts <;> simp

theorem length_of_modifierLength? (h : modifierLength? ts = some n) : n ≤ ts.length := by
  obtain ⟨-, -, ⟨hdetail, rfl⟩ | ⟨-, rfl⟩⟩ := modifierLength?_eq_some.mp h
  · rw [seesDetail, Bool.and_eq_true] at hdetail
    exact Rule.length_of_textAt (by decide) hdetail.2
  · exact (pos_of_modifierLength? h).2

/-- A modifier is one still if the token behind it is left, and if it does not get a detail. -/
theorem modifierLength?_sameHead {us rest' : List Token} (h : modifierLength? (us ++ rest) = some n)
    (hlen : us.length = n) (hsame : SameHead rest rest')
    (hdetail : n = 1 → seesDetail (us ++ rest') = false) : modifierLength? (us ++ rest') = some n := by
  have hpos := (pos_of_modifierLength? h).1
  rw [modifierLength?_eq_some] at h ⊢
  obtain ⟨hword, hclass, hcase⟩ := h
  refine ⟨?_, ?_, ?_⟩
  · rw [ofHead_seesModifierWord.same (hsame.prepend us), hword]
  · obtain ⟨t, vs, vs', rfl, rfl⟩ := hsame
    have htwo : 2 ≤ (us ++ [t]).length := by
      rw [length_append, length_singleton]
      omega
    have heq := within_seesPlainClass.same htwo vs vs'
    rw [append_assoc, append_assoc, singleton_append, singleton_append] at heq
    rw [heq, hclass]
  · rcases hcase with ⟨hyes, rfl⟩ | ⟨-, rfl⟩
    · left
      rw [within_seesDetail.same (Nat.le_of_eq hlen.symm) rest rest']
      exact ⟨hyes, rfl⟩
    · exact .inr ⟨hdetail rfl, rfl⟩

/-- The token behind the next one is a word that makes `class` a modifier. -/
def seesClassMember : Lookahead := fun ts =>
  modifierWords.contains (textAt 1 ts) || classMemberKeywords.contains (textAt 1 ts)

/-- What is no modifier does not become one: `class` needs a word behind it to be one. -/
theorem modifierLength?_none_sameHead {ts' : List Token} (h : modifierLength? ts = none)
    (hsame : SameHead ts ts') (hmember : seesClassMember ts = false → seesClassMember ts' = false) :
    modifierLength? ts' = none := by
  rw [modifierLength?_eq_none] at h ⊢
  rcases h with hword | hclass
  · exact .inl ((ofHead_seesModifierWord.same hsame).trans hword)
  · right
    have hplain (us : List Token) : seesPlainClass us = (textAt 0 us == "class" && !seesClassMember us) := rfl
    rw [hplain, Bool.and_eq_true, Bool.not_eq_true'] at hclass ⊢
    obtain ⟨t, us, us', rfl, rfl⟩ := hsame
    exact ⟨hclass.1, hmember hclass.2⟩

namespace Rule

theorem keeps_declModifier : Keeps declModifier := lawful_declModifier.keeps

section

variable {all : List Token} {E : Exchange} {pre : List Token → Prop}
  (hdetail : seesDetail.Quiet E) (hmember : seesClassMember.Quiet E)

include hdetail in
/-- A modifier is read again if the token behind it is left. -/
theorem declModifier_again {rest' : List Token} (hask : isModifier ts = true)
    (h : declModifier ts = .ok (f, rest)) (hx : Exchanged E rest rest') (hsame : SameHead rest rest') :
    isModifier (forestTokens f ++ rest') = true ∧
      declModifier (forestTokens f ++ rest') = .ok (f, rest') := by
  have hx' := keeps_declModifier.exchanged h hx
  obtain ⟨n, hn⟩ := Option.isSome_iff_exists.mp hask
  obtain ⟨rfl, rfl⟩ := declModifier_eq_ok hn h
  have htokens : forestTokens [.node .declModifier ((ts.take n).map .token)] = ts.take n := by
    rw [forestTokens_singleton, tokens_node, forestTokens_map_token]
  have hlen : (ts.take n).length = n := length_take_of_le (length_of_modifierLength? hn)
  rw [htokens] at hx' ⊢
  have hagain : modifierLength? (ts.take n ++ rest') = some n := by
    refine modifierLength?_sameHead ((take_append_drop n ts).symm ▸ hn) hlen hsame fun hone => ?_
    refine hdetail.exchanged hx' ?_
    rcases (modifierLength?_eq_some.mp hn).2.2 with ⟨-, hfour⟩ | ⟨hno, -⟩
    · omega
    · exact hno
  refine ⟨by rw [isModifier, hagain]; rfl, node_ok ?_⟩
  rw [hagain, Option.getD_some, bumps_ok, take_left' hlen, drop_left' hlen]

include hmember in
theorem not_isModifier_again {ts' : List Token} (h : isModifier ts = false) (hx : Exchanged E ts ts')
    (hsame : SameHead ts ts') : isModifier ts' = false := by
  have hnone := Option.not_isSome_iff_eq_none.mp (Bool.eq_false_iff.mp h)
  rw [isModifier, modifierLength?_none_sameHead hnone hsame (hmember.exchanged hx)]
  rfl

include hdetail hmember

/-- Modifiers in front of a token that is left. -/
theorem rereads_modifiers : Rereads all E pre SameHead (optional isModifier modifierList)
    (optional isModifier modifierList) := by
  have hmodifier : Rereads all E (Asked isModifier) SameHead declModifier declModifier :=
    ⟨keeps_declModifier, fun _ _ _ _ _ hask h hx hsame => (declModifier_again hdetail hask h hx hsame).2⟩
  have hmany : Rereads all E Anywhere SameHead (many isModifier declModifier)
      (many isModifier declModifier) := by
    refine hmodifier.many ?_ ?_ ?_ ?_
    · intro ts f rest hask h
      exact length_lt_of_declModifier hask h
    · intro ts f rest rest' hask h hx hsame
      exact (declModifier_again hdetail hask h hx hsame).1
    · intro rest rest' hno hx hsame
      exact not_isModifier_again hmember hno hx hsame
    · intro ts f rest rest' h _ hsame
      rw [← keeps_declModifier.many isModifier h]
      exact hsame.prepend _
  exact hmany.optional_many keeps_declModifier (fun _ _ _ hask h => length_lt_of_declModifier hask h)
    (fun _ _ hno hx hsame => not_isModifier_again hmember hno hx hsame) _

end

/-! ## The keyword -/

/-- What a search for a declaration finds, given what is read behind the attributes and modifiers. -/
theorem declarationStart?_of_optional {mid : List Token} {g : List Tree}
    (hattributes : optional (seesKind .atSign) attributeList ts = .ok (f, mid))
    (hmodifiers : optional isModifier modifierList mid = .ok (g, rest)) :
    declarationStart? ts = if seesDeclarationKeyword rest then some rest else none := by
  obtain ⟨as, has⟩ := many_of_optional hattributes
  obtain ⟨ms, hms⟩ := many_of_optional hmodifiers
  rw [declarationStart?, afterAttributes?_of_attributes has]
  simp only [Option.bind_eq_bind, Option.bind_some]
  rw [afterModifiers_of_modifiers hms]

/-- **A declaration is found and introduced again.** The keyword `actor` needs the name behind it. -/
theorem introducer_again {all : List Token} {E T : Exchange} (hends : TypeEnds all E T)
    (hdetail : seesDetail.Quiet E) (hmember : seesClassMember.Quiet E) {start rest' : List Token}
    (htail : Token.Tail all ts) (hstart : declarationStart? ts = some start)
    (h : introducer ts = .ok (f, rest)) (hx : Exchanged E rest rest')
    (hactor : textAt 0 start = "actor" → seesWord rest' = true) :
    ∃ keyword, start = keyword :: rest ∧ declarationStart? (forestTokens f ++ rest') =
      some (keyword :: rest') ∧
      introducer (forestTokens f ++ rest') = .ok (f, rest') := by
  have hrule : Rereads all E Anywhere SameHead (optional isModifier modifierList)
      (optional isModifier modifierList) :=
    rereads_modifiers hdetail hmember
  have hrule' : Rereads all E Anywhere Always (optional (seesKind .atSign) attributeList)
      (optional (seesKind .atSign) attributeList) := rereads_attributes hends
  obtain ⟨f', mid', f₃, h', hkeyword, rfl⟩ := seq_eq_ok h
  obtain ⟨f₁, mid, f₂, hattributes, hmodifiers, rfl⟩ := seq_eq_ok h'
  rw [declarationStart?_of_optional hattributes hmodifiers] at hstart
  split at hstart
  · next hsees =>
    cases hstart
    have hne : start ≠ [] := by
      rintro rfl
      exact absurd hsees (by decide)
    obtain ⟨keyword, tail, rfl⟩ := exists_cons_of_ne_nil hne
    cases hkeyword
    refine ⟨keyword, rfl, ?_⟩
    have hx' : Exchanged E (keyword :: tail) (keyword :: rest') := hx.prepend [keyword]
    have hmodifiers' := hrule.again (htail.rest hrule'.keeps hattributes) trivial hmodifiers hx'
      ⟨keyword, _, _, rfl, rfl⟩
    have hattributes' := hrule'.again htail trivial hattributes (hrule.keeps.exchanged hmodifiers hx') trivial
    have hinput : forestTokens (f₁ ++ f₂ ++ [token keyword]) ++ rest' =
        forestTokens f₁ ++ (forestTokens f₂ ++ keyword :: rest') := by
      rw [forestTokens_append, forestTokens_append, forestTokens_singleton, tokens_token]
      simp only [append_assoc, cons_append, nil_append]
    have hsees' : seesDeclarationKeyword (keyword :: rest') = true := by
      rw [seesDeclarationKeyword, Bool.and_eq_true] at hsees ⊢
      refine ⟨hsees.1, ?_⟩
      cases hname : sees "actor" (keyword :: rest') with
      | false => rfl
      | true =>
        have hword := hactor (eq_of_beq hname)
        cases rest' with
        | nil => cases hword
        | cons t rest' => exact hword
    show declarationStart? (forestTokens (f₁ ++ f₂ ++ [token keyword]) ++ rest') = _ ∧
      introducer (forestTokens (f₁ ++ f₂ ++ [token keyword]) ++ rest') = _
    rw [hinput]
    refine ⟨?_, seq_ok (seq_ok hattributes' hmodifiers') rfl⟩
    rw [declarationStart?_of_optional hattributes' hmodifiers', if_pos hsees']
  · cases hstart

end Rule

/-! ## Searches in other input

A search that has found something finds it whatever stands behind, as long as the questions that it has
asked there get the same answers. -/

/-- The lists begin with the same token, and what a search asks about the token behind it gets the same
answer. -/
structure AlikeAhead (ts ts' : List Token) : Prop where
  sameHead : SameHead ts ts'
  word : isWordAt 1 ts' = isWordAt 1 ts
  plainClass : seesPlainClass ts' = seesPlainClass ts

theorem AlikeAhead.prepend {ts' : List Token} (h : AlikeAhead ts ts') (us : List Token) :
    AlikeAhead (us ++ ts) (us ++ ts') := by
  cases us with
  | nil => exact h
  | cons u us =>
    obtain ⟨t, vs, vs', hts, hts'⟩ := h.sameHead.prepend us
    rw [cons_append, cons_append, hts, hts']
    exact ⟨⟨u, _, _, rfl, rfl⟩, rfl, rfl⟩

theorem alike_append (h : 2 ≤ ts.length) (more : List Token) : AlikeAhead ts (ts ++ more) :=
  match ts, h with
  | t :: _ :: _, _ => ⟨⟨t, _, _, rfl, rfl⟩, rfl, rfl⟩

theorem afterDottedName_alike (ts : List Token) : ∃ us, ts = us ++ afterDottedName ts ∧
    ∀ rest', AlikeAhead (afterDottedName ts) rest' → afterDottedName (us ++ rest') = rest' := by
  fun_induction afterDottedName ts with
  | case1 dot word rest hdot ih =>
    obtain ⟨us, hus, hagain⟩ := ih
    refine ⟨dot :: word :: us, congrArg (dot :: word :: ·) hus, fun rest' halike => ?_⟩
    rw [cons_append, cons_append, afterDottedName, if_pos hdot, hagain rest' halike]
  | case2 dot word rest hdot =>
    refine ⟨[], rfl, fun rest' halike => ?_⟩
    obtain ⟨⟨t, us, us', heq, rfl⟩, hword, -⟩ := halike
    cases heq
    cases us' with
    | nil => rfl
    | cons w us' =>
      have hw : w.isWord = word.isWord := hword
      rw [nil_append, afterDottedName, hw, if_neg hdot]
  | case3 ts hshort =>
    refine ⟨[], rfl, fun rest' halike => ?_⟩
    obtain ⟨⟨t, us, us', rfl, rfl⟩, hword, -⟩ := halike
    cases us with
    | cons u us => exact absurd rfl (hshort t u us)
    | nil =>
      cases us' with
      | nil => rfl
      | cons w us' =>
        have hw : w.isWord = false := hword
        rw [nil_append, afterDottedName, hw, Bool.and_false, Bool.false_and, if_neg Bool.false_ne_true]

theorem afterAttribute?_eq_some (h : afterAttribute? ts = some rest) :
    ∃ sign word tail, ts = sign :: word :: tail ∧ word.isWord = true ∧
      ((seesAdjacent "(" (afterDottedName tail) = true ∧
          ∃ run, takeGroup 0 (afterDottedName tail) = some (run, rest)) ∨
        (seesAdjacent "(" (afterDottedName tail) = false ∧ rest = afterDottedName tail)) := by
  match ts with
  | [] => cases h
  | [t] => cases h
  | sign :: word :: tail =>
    refine ⟨sign, word, tail, rfl, ?_⟩
    rw [afterAttribute?] at h
    split at h
    · next hword =>
      refine ⟨hword, ?_⟩
      simp only at h
      cases hadjacent : seesAdjacent "(" (afterDottedName tail) with
      | true =>
        rw [if_pos hadjacent] at h
        obtain ⟨p, hp, rfl⟩ := Option.map_eq_some_iff.mp h
        exact .inl ⟨rfl, p.1, hp⟩
      | false =>
        rw [hadjacent, if_neg Bool.false_ne_true] at h
        cases h
        exact .inr ⟨rfl, rfl⟩
    · cases h

theorem afterAttribute?_alike (h : afterAttribute? ts = some rest) : ∃ us, ts = us ++ rest ∧
    ∀ rest', AlikeAhead rest rest' → afterAttribute? (us ++ rest') = some rest' := by
  obtain ⟨sign, word, tail, rfl, hword, hcase⟩ := afterAttribute?_eq_some h
  obtain ⟨us, hus, hagain⟩ := afterDottedName_alike tail
  rcases hcase with ⟨hadjacent, run, hrun⟩ | ⟨hadjacent, rfl⟩
  · have hdotted := takeGroup_append hrun
    refine ⟨sign :: word :: (us ++ run), ?_, fun rest' halike => ?_⟩
    · rw [cons_append, cons_append, append_assoc, hdotted, ← hus]
    · have halike' := halike.prepend run
      rw [hdotted] at halike'
      have hopen := (ofHead_seesAdjacent "(").same halike'.sameHead
      rw [cons_append, cons_append, append_assoc, afterAttribute?, if_pos hword,
        hagain _ halike']
      simp only [hopen.trans hadjacent, if_true, takeGroup_cut hrun rest', Option.map_some]
  · refine ⟨sign :: word :: us, congrArg (sign :: word :: ·) hus, fun rest' halike => ?_⟩
    have hopen := (ofHead_seesAdjacent "(").same halike.sameHead
    rw [cons_append, cons_append, afterAttribute?, if_pos hword, hagain _ halike]
    simp only [hopen.trans hadjacent, Bool.false_eq_true, if_false]

theorem afterAttribute?_isSuffix (h : afterAttribute? ts = some rest) : rest <:+ ts := by
  obtain ⟨us, hus, -⟩ := afterAttribute?_alike h
  exact ⟨us, hus.symm⟩

theorem afterAttributes?_alike (h : afterAttributes? ts = some rest) : ∃ us, ts = us ++ rest ∧
    ∀ rest', AlikeAhead rest rest' → afterAttributes? (us ++ rest') = some rest' := by
  fun_induction afterAttributes? ts with
  | case1 ts hsign mid hmid ih =>
    obtain ⟨us, rfl, hagain⟩ := afterAttribute?_alike hmid
    obtain ⟨vs, rfl, hagain'⟩ := ih h
    refine ⟨us ++ vs, (append_assoc ..).symm, fun rest' halike => ?_⟩
    have hmid' := halike.prepend vs
    have hsign' := (ofHead_seesKind .atSign).same (hmid'.prepend us).sameHead
    rw [append_assoc, afterAttributes?_of_some (hsign'.trans hsign) (hagain _ hmid'),
      hagain' rest' halike]
  | case2 ts hsign hnone => cases h
  | case3 ts hsign =>
    cases h
    refine ⟨[], rfl, fun rest' halike => afterAttributes?_of_not ?_⟩
    rw [nil_append, (ofHead_seesKind .atSign).same halike.sameHead]
    exact Bool.eq_false_iff.mpr hsign

theorem afterAttributes?_isSuffix (h : afterAttributes? ts = some rest) : rest <:+ ts := by
  obtain ⟨us, hus, -⟩ := afterAttributes?_alike h
  exact ⟨us, hus.symm⟩

/-- Modifiers end where they ended, unless a parenthesis stands there, which might open a detail. -/
theorem afterModifiers_alike (ts : List Token) : ∃ us, ts = us ++ afterModifiers ts ∧
    (textAt 0 (afterModifiers ts) ≠ "(" →
      ∀ rest', AlikeAhead (afterModifiers ts) rest' → afterModifiers (us ++ rest') = rest') := by
  fun_induction afterModifiers ts with
  | case1 ts n hn ih =>
    obtain ⟨us, hus, hagain⟩ := ih
    have hlen : (ts.take n).length = n := length_take_of_le (length_of_modifierLength? hn)
    refine ⟨ts.take n ++ us, ?_, fun hparen rest' halike => ?_⟩
    · rw [append_assoc, ← hus, take_append_drop]
    · have hsame := (halike.prepend us).sameHead
      rw [← hus] at hsame
      have hn' : modifierLength? (ts.take n ++ (us ++ rest')) = some n := by
        refine modifierLength?_sameHead ((take_append_drop n ts).symm ▸ hn) hlen hsame ?_
        rintro rfl
        -- a parenthesis is no modifier, so the search would have stopped before it
        have hnext : textAt 0 (ts.drop 1) ≠ "(" := by
          intro htext
          have hnone : modifierLength? (ts.drop 1) = none := by
            rw [modifierLength?_eq_none]
            left
            rw [seesModifierWord, htext]
            exact Bool.and_false _
          rw [afterModifiers_of_none hnone] at hparen
          exact hparen htext
        obtain ⟨t, vs, vs', hts, hts'⟩ := hsame
        rw [hts] at hnext
        obtain ⟨u, hu⟩ := length_eq_one_iff.mp hlen
        rw [hts', hu, seesDetail]
        have hopen : (textAt 1 ([u] ++ t :: vs') == "(") = false := beq_eq_false_iff_ne.mpr hnext
        rw [hopen, Bool.and_false, Bool.false_and, Bool.false_and]
      rw [append_assoc, afterModifiers_of_some hn', drop_left' hlen, hagain hparen rest' halike]
  | case2 ts hnone =>
    refine ⟨[], rfl, fun _ rest' halike => afterModifiers_of_none ?_⟩
    rw [modifierLength?_eq_none] at hnone ⊢
    rw [nil_append, ofHead_seesModifierWord.same halike.sameHead, halike.plainClass]
    exact hnone

theorem afterModifiers_isSuffix (ts : List Token) : afterModifiers ts <:+ ts := by
  obtain ⟨us, hus, -⟩ := afterModifiers_alike ts
  exact ⟨us, hus.symm⟩

theorem declarationStart?_eq_some (h : declarationStart? ts = some start) :
    ∃ mid, afterAttributes? ts = some mid ∧ afterModifiers mid = start ∧
      seesDeclarationKeyword start = true := by
  unfold declarationStart? at h
  obtain ⟨mid, hmid, h⟩ := Option.bind_eq_some_iff.mp h
  simp only at h
  split at h
  · next hsees =>
    cases h
    exact ⟨mid, hmid, rfl, hsees⟩
  · cases h

theorem declarationStart?_nil : declarationStart? [] = none := by
  have hattributes : afterAttributes? [] = some [] := by
    rw [afterAttributes?]
    rfl
  have hmodifiers : afterModifiers [] = [] := by
    rw [afterModifiers]
    rfl
  rw [declarationStart?, hattributes]
  simp only [Option.bind_eq_bind, Option.bind_some, hmodifiers]
  rfl

/-- **A declaration that is found is found with other input behind it.** -/
theorem declarationStart?_alike (h : declarationStart? ts = some start) : ∃ us, ts = us ++ start ∧
    ∀ start', AlikeAhead start start' → declarationStart? (us ++ start') = some start' := by
  obtain ⟨mid, hmid, hstart, hsees⟩ := declarationStart?_eq_some h
  obtain ⟨us, rfl, hagain⟩ := afterAttributes?_alike hmid
  obtain ⟨vs, hvs, hagain'⟩ := afterModifiers_alike mid
  have hparen : textAt 0 (afterModifiers mid) ≠ "(" := by
    rw [hstart]
    intro hparen
    rw [seesDeclarationKeyword, hparen] at hsees
    simp only [Bool.and_eq_true] at hsees
    exact absurd hsees.1.2 (by decide)
  rw [hstart] at hvs hagain' hparen
  refine ⟨us ++ vs, by rw [append_assoc, ← hvs], fun start' halike => ?_⟩
  have hmid' := halike.prepend vs
  rw [← hvs] at hmid'
  have hsees' : seesDeclarationKeyword start' = true := by
    have hword := halike.word
    obtain ⟨t, ws, ws', rfl, rfl⟩ := halike.sameHead
    rw [seesDeclarationKeyword, hword]
    exact hsees
  rw [append_assoc]
  unfold declarationStart?
  simp only [hagain _ hmid', Option.bind_eq_bind, Option.bind_some,
    hagain' hparen start' halike, hsees', if_true]

theorem declarationStart?_isSuffix (h : declarationStart? ts = some start) : start <:+ ts := by
  obtain ⟨us, hus, -⟩ := declarationStart?_alike h
  exact ⟨us, hus.symm⟩

end SwiftOutline
