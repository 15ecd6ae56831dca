import SwiftOutline.Proofs.Grammar.Extend
import SwiftOutline.Proofs.Grammar.Matching

/-!
# `ExtendItems` — declarations and statements in front of `#endif`

What has been read up to the end of a text is read again where the directive `#endif` follows on a line
of its own. No question that a rule asks is answered by the directive: it is no word, it is none of the
texts that a rule goes on with, and it ends each line, run and condition as the end of the text does.
Only brackets matter. A run that stands inside brackets at the end of the text would take the directive
in, so the brackets of the text must match.
-/

namespace SwiftOutline

open Lookahead Rule List

theorem Lookahead.Steady.and {more : List Token} {a b : Lookahead} (ha : Steady more a) (hb : Steady more b) :
    Steady more fun ts => a ts && b ts := by
  intro ts
  simp only [ha ts, hb ts]

/-- What begins with no word and no attribute is no declaration. -/
theorem declarationStart?_of_not_isWord {t : Token} (hword : t.isWord = false) (hkind : t.kind ≠ .atSign)
    (ts : List Token) : declarationStart? (t :: ts) = none := by
  have hsign : seesKind .atSign (t :: ts) = false := beq_eq_false_iff_ne.mpr hkind
  have hnot : seesWord (t :: ts) = false := hword
  have hmodifier : seesModifierWord (t :: ts) = false := by rw [seesModifierWord, hnot, Bool.false_and]
  have hkeyword : seesDeclarationKeyword (t :: ts) = false := by
    rw [seesDeclarationKeyword, hnot, Bool.false_and, Bool.false_and]
  rw [declarationStart?, afterAttributes?_of_not hsign]
  show (if seesDeclarationKeyword (afterModifiers (t :: ts)) then _ else none) = none
  rw [afterModifiers_of_none (modifierLength?_eq_none.mpr (.inl hmodifier)), hkeyword,
    if_neg Bool.false_ne_true]

/-- No item begins where a clause or a block ends. -/
theorem not_seesClauseEnd_of_item {n : Nat} {ts rest : List Token} {f : List Tree}
    (hlex : ∀ t ∈ ts, t.Lexical) (h : item n ts = .ok (f, rest)) :
    seesClauseEnd ts = false ∧ sees "\x7d" ts = false := by
  rw [← Bool.or_eq_false_iff]
  cases n with
  | zero => cases h
  | succ n =>
    cases ts with
    | nil => rfl
    | cons t ts =>
      rw [Bool.eq_false_iff]
      intro hends
      have htext : t.text ∈ ["#elseif", "#else", "#endif", "\x7d"] := by
        simpa [seesClauseEnd, sees, or_assoc] using hends
      have hlexical := hlex t mem_cons_self
      have hkind : t.kind = .poundDirective ∨ t.kind = .punct := by
        simp only [mem_cons, not_mem_nil, or_false] at htext
        rcases htext with htext | htext | htext | htext
        · exact .inl (hlexical.kind_of_text htext rfl)
        · exact .inl (hlexical.kind_of_text htext rfl)
        · exact .inl (hlexical.kind_of_text htext rfl)
        · exact .inr (hlexical.kind_of_text htext rfl)
      have hstart : declarationStart? (t :: ts) = none := by
        refine declarationStart?_of_not_isWord ?_ ?_ ts
        · rcases hkind with hkind | hkind <;> rw [Token.isWord, hkind] <;> rfl
        · rcases hkind with hkind | hkind <;> rw [hkind] <;> decide
      have hother (text : String) (hne : text ∉ ["#elseif", "#else", "#endif", "\x7d"]) :
          sees text (t :: ts) = false := by
        show (t.text == text) = false
        rw [beq_eq_false_iff_ne]
        rintro rfl
        exact hne htext
      rw [item, itemBody_statement (hother ";" (by decide)) (hother "#if" (by decide)) hstart] at h
      unfold statement require either at h
      split at h
      · next hasked =>
        have hnot : (!(sees "\x7d" (t :: ts) || seesClauseEnd (t :: ts))) = true := hasked
        rw [Bool.or_comm, hends] at hnot
        cases hnot
      · cases h

namespace EndsClause

/-! ## Questions -/

section

variable {more : List Token} (hmore : EndsClause more)
include hmore

theorem stops : Stops more := by
  obtain ⟨e, rfl, hkind, htext, -⟩ := hmore
  exact ⟨e, [], rfl, by rw [htext]; decide, by rw [hkind]; decide⟩

/-- What no directive is, the token at any place is as it was. -/
theorem steady_at (n : Nat) {q : Token → Bool} (hq : ∀ t : Token, t.kind = .poundDirective → q t = false) :
    Steady more fun ts => ts[n]?.any q := by
  intro ts
  obtain ⟨e, rfl, hkind, -⟩ := hmore
  show (ts ++ [e])[n]?.any q = ts[n]?.any q
  by_cases hn : n < ts.length
  · rw [List.getElem?_append_left hn]
  · have hle := Nat.not_lt.mp hn
    rw [List.getElem?_append_right hle, List.getElem?_eq_none hle]
    cases n - ts.length with
    | zero => exact hq e hkind
    | succ k => rfl

theorem steady_isWordAt (n : Nat) : Steady more (isWordAt n) :=
  hmore.steady_at n fun t ht => by rw [Token.isWord, ht]; rfl

/-- What is true of the directive as of no text, the text at any place is as it was. -/
theorem steady_textAt (n : Nat) {q : String → Bool} (hq : q "#endif" = q "") :
    Steady more fun ts => q (textAt n ts) := by
  intro ts
  obtain ⟨e, rfl, -, htext, -⟩ := hmore
  show q (textAt n (ts ++ [e])) = q (textAt n ts)
  by_cases hn : n < ts.length
  · rw [textAt_append hn]
  · have hle := Nat.not_lt.mp hn
    rw [textAt, textAt, List.getElem?_append_right hle, List.getElem?_eq_none hle]
    cases n - ts.length with
    | zero =>
      show q e.text = q ""
      rw [htext, hq]
    | succ k => rfl

theorem steady_sees {text : String} (h : text ≠ "#endif") : Steady more (sees text) := by
  refine (ofHead_sees text).steady ?_
  obtain ⟨e, rfl, -, htext, -⟩ := hmore
  show (e.text == text) = false
  rw [htext]
  exact beq_eq_false_iff_ne.mpr h.symm

/-- Tokens up to the directive that begin with another token begin before it. -/
theorem append_split {ts us tail : List Token} {t : Token} (h : ts ++ more = us ++ t :: tail)
    (hkind : t.kind ≠ .poundDirective) : ∃ tail', ts = us ++ t :: tail' ∧ t :: tail = t :: tail' ++ more := by
  obtain ⟨e, rfl, he, -⟩ := hmore
  cases eq_nil_or_concat tail with
  | inl hnil =>
    rw [hnil] at h
    obtain ⟨-, heq⟩ := append_inj' h rfl
    cases heq
    exact absurd he hkind
  | inr hconcat =>
    obtain ⟨tail', last, rfl⟩ := hconcat
    rw [concat_eq_append, ← cons_append, ← append_assoc] at h
    obtain ⟨hts, heq⟩ := append_inj' h rfl
    cases heq
    exact ⟨tail', hts, by rw [concat_eq_append, cons_append]⟩

/-- An arrow is not found by looking past the directive. -/
theorem not_seesFunctionArrow {ts : List Token} (h : seesFunctionArrow ts = false) :
    seesFunctionArrow (ts ++ more) = false := by
  rw [Bool.eq_false_iff]
  intro hyes
  unfold seesFunctionArrow at hyes
  cases heffects : afterEffects? (ts ++ more) with
  | none =>
    rw [heffects] at hyes
    cases hyes
  | some rest =>
    rw [heffects, Option.any_some] at hyes
    obtain ⟨us, hus, hfound⟩ := afterEffects?_sameHead heffects
    obtain ⟨t, tail, rfl⟩ := (ofHead_seesKind .arrow).exists_cons hyes
    have hkind : t.kind = .arrow := eq_of_beq hyes
    obtain ⟨tail', rfl, hrest⟩ := hmore.append_split hus (by rw [hkind]; decide)
    have hagain := hfound (t :: tail') ⟨t, _, _, rfl, rfl⟩
    rw [seesFunctionArrow, hagain, Option.any_some, seesKind, List.head?_cons, Option.any_some, hkind] at h
    cases h

/-- **What is no declaration is none in front of the directive.** -/
theorem undeclared {ts : List Token} (h : declarationStart? ts = none) :
    declarationStart? (ts ++ more) = none := by
  cases hstart : declarationStart? (ts ++ more) with
  | none => rfl
  | some start =>
    obtain ⟨us, hus, hagain⟩ := declarationStart?_alike hstart
    obtain ⟨-, -, -, hsees⟩ := declarationStart?_eq_some hstart
    have hword : seesWord start = true := by
      rw [seesDeclarationKeyword, Bool.and_eq_true, Bool.and_eq_true] at hsees
      exact hsees.1.1
    obtain ⟨t, tail, rfl⟩ := ofHead_seesWord.exists_cons hword
    have hkind : t.kind ≠ .poundDirective := by
      intro hkind
      have hisWord : t.isWord = true := hword
      rw [Token.isWord, hkind] at hisWord
      cases hisWord
    obtain ⟨tail', rfl, hrest⟩ := hmore.append_split hus hkind
    -- the directive behind the keyword is neither a name nor the keyword of a member
    have halike : AlikeAhead (t :: tail) (t :: tail') := by
      refine ⟨⟨t, _, _, rfl, rfl⟩, ?_, ?_⟩
      · rw [hrest]
        exact (hmore.steady_isWordAt 1 (t :: tail')).symm
      · have hmember : Steady more seesPlainClass := by
          refine (@steady_textAt _ hmore 0 (· == "class") rfl).and fun ts => congrArg not ?_
          exact ((@steady_textAt _ hmore 1 modifierWords.contains rfl).or
            (@steady_textAt _ hmore 1 classMemberKeywords.contains rfl)) ts
        rw [hrest]
        exact (hmember (t :: tail')).symm
    rw [hagain _ halike] at h
    cases h

end

/-! ## Items -/

section

variable {more : List Token} (hmore : EndsClause more)
include hmore

theorem takeRun_append {ts : List Token} (hclosable : Closable ts) (comma : Bool) :
    takeRun comma false 0 (ts ++ more) = ((takeRun comma false 0 ts).1,
      (takeRun comma false 0 ts).2 ++ more) := by
  obtain ⟨stack, hstack⟩ := hclosable
  exact takeRun_directive hmore hstack (Nat.zero_le _)

/-- **How an item goes on is not answered by the directive**, where all brackets are closed. -/
theorem itemEnds {all : List Token} (hall : Closable all) :
    ItemEnds all (Followed more) Always Always Always := by
  have hclosable {ts : List Token} (htail : Token.Tail all ts) : Closable ts := by
    obtain ⟨before, hbefore⟩ := htail.suffix
    rw [← hbefore] at hall
    exact hall.of_append
  have hadjacent : OfHead fun ts => seesOperator ts && ts.head?.any Token.isAdjacent :=
    ofHead_seesOperator.and ⟨_, fun _ => rfl⟩
  have hline : OfHead fun ts => !(seesEnd ts || seesNewline ts) :=
    OfHead.not (a := seesNewline) ⟨_, fun _ => rfl⟩
  have hruns {comma : Bool} {ts rest' : List Token} (htail : Token.Tail all ts)
      (hx : Exchanged (Followed more) (takeRun comma false 0 ts).2 rest') :
      takeRun comma false 0 ((takeRun comma false 0 ts).1 ++ rest') =
        ((takeRun comma false 0 ts).1, rest') := by
    rw [exchanged_followed.mp hx, ← append_assoc, SwiftOutline.takeRun_append,
      hmore.takeRun_append (hclosable htail)]
  exact {
    types := hmore.stops.typeEnds_of (fun _ _ => trivial) fun _ hx _ h => by
      rw [exchanged_followed.mp hx]
      exact hmore.not_seesFunctionArrow h
    sees := fun h => (hmore.steady_sees h).quiet
    isWordAt := fun n => (hmore.steady_isWordAt n).quiet
    textAt := fun n q hnone hendif => (@steady_textAt _ hmore n q (hendif.trans hnone.symm)).quiet
    punct := (hmore.steady_at 1 fun t ht => by rw [ht]; rfl).quiet
    operators := by
      refine (hadjacent.steady ?_).quiet
      obtain ⟨e, rfl, hkind, -⟩ := hmore
      show (isOperatorToken e && _) = false
      rw [isOperatorToken, hkind]
      rfl
    line := by
      refine (hline.steady ?_).quiet
      obtain ⟨e, rfl, -, -, hnewline⟩ := hmore
      show (!e.newlineBefore) = false
      rw [hnewline]
      rfl
    exprRun := ⟨lawful_exprRun.keeps, fun _ _ _ _ htail _ h hx _ => by
      obtain ⟨rfl, rfl⟩ := split_eq_ok h
      rw [Tree.forestTokens_map_token]
      exact run_ok (congrArg Except.ok (hruns htail hx))⟩
    statementRun := ⟨lawful_statementRun.keeps, fun _ _ _ _ htail _ h hx _ => by
      obtain ⟨rfl, rfl⟩ := split_eq_ok h
      rw [Tree.forestTokens_map_token]
      exact run_ok (congrArg Except.ok (hruns htail hx))⟩
    requirements := ⟨lawful_requirements.keeps, fun ts f rest rest' htail _ h hx _ => by
      have hkeeps := lawful_requirements.keeps h
      obtain ⟨stack, hstack⟩ := hclosable htail
      rw [exchanged_followed.mp hx, ← append_assoc, hkeeps]
      obtain ⟨rfl, rfl⟩ := split_eq_ok h
      exact run_ok (congrArg Except.ok
        (takeRequirements_directive hmore (fun _ => htail.mem) hstack (Nat.zero_le _)))⟩
    undeclared := fun _ hx _ h => by
      rw [exchanged_followed.mp hx]
      exact hmore.undeclared h
    offBrace := fun _ _ => trivial
    twoTokens := fun _ _ _ => trivial
    item_prepend := fun _ _ => trivial
    item_done := fun _ => trivial
    done_expr := fun _ => trivial
    done_item := fun _ _ => trivial }

/-- **The items of a text are the items of a clause**, up to the directive that ends it. -/
theorem clauseItems {n : Nat} {ts : List Token} {f : List Tree} (hlex : ∀ t ∈ ts, t.Lexical)
    (hclosable : Closable ts) (h : many (fun ts => !seesEnd ts) (item n) ts = .ok (f, [])) :
    many (fun ts => !seesClauseEnd ts)
      (require (fun ts => !(seesEnd ts || sees "\x7d" ts)) "'#endif'" (item n))
      (ts ++ more) = .ok (f, more) := by
  have hrule := rereads_item (hmore.itemEnds hclosable) (Nat.le_refl n)
  refine many_induction (motive := fun us f rest => rest = [] → Token.Tail ts us →
    many (fun ts => !seesClauseEnd ts)
      (require (fun ts => !(seesEnd ts || sees "\x7d" ts)) "'#endif'" (item n))
      (us ++ more) = .ok (f, more)) ?_ ?_ ?_ h rfl ⟨hlex, suffix_refl ts⟩
  · rintro us - rfl -
    refine many_of_not ?_
    show (!seesClauseEnd more) = false
    rw [hmore.ends]
    rfl
  · intro us f rest hask hok hnot _ _
    exact absurd (length_lt_of_item hask hok) hnot
  · intro us f mid f' rest hask hok hlt _ ih hrest htail
    have hne : us ≠ [] := by
      rintro rfl
      cases hask
    have hsame : SameHead us (us ++ more) := by
      have hsame := sameHead_append hne [] more
      rwa [append_nil] at hsame
    obtain ⟨hclause, hbrace⟩ := not_seesClauseEnd_of_item (fun _ => htail.mem) hok
    have hround := hrule.extended htail hne hok trivial
    have hasked : (!(seesEnd (us ++ more) || sees "\x7d" (us ++ more))) = true := by
      rw [(OfHead.not (ofHead_sees "\x7d")).same hsame, hbrace, Bool.or_false]
      exact hask
    have hentry : require (fun ts => !(seesEnd ts || sees "\x7d" ts)) "'#endif'" (item n) (us ++ more) =
        .ok (f, mid ++ more) := by
      unfold require either
      rw [if_pos hasked, hround]
    refine many_round_ok ?_ hentry ?_ (ih hrest (htail.rest (lawful_item n).keeps hok))
    · show (!seesClauseEnd (us ++ more)) = true
      rw [ofHead_seesClauseEnd.same hsame, hclause]
      rfl
    · rw [length_append, length_append]
      exact Nat.add_lt_add_right hlt _

end

end EndsClause

end SwiftOutline
