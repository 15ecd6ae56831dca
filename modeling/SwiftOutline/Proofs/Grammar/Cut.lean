import SwiftOutline.Proofs.Grammar.RereadItems

/-!
# `Cut` — rules whose rest is cut short

A rule that has read some trees reads them again where the rest that it left is cut short. What it has
asked about the rest and found to be true, the cut may have taken away; what it has found not to be true
stays so. A type is read again over every cut. A declaration is read again when everything behind it is
cut off, or when the cut leaves the end of a block or of a conditional around it (`Closed`). A statement
needs the latter: cut off behind its last token it may begin to look like a declaration.
-/

namespace SwiftOutline

open Lookahead List

/-- Nothing takes the place of what was there. -/
def CutOff (_ rest : List Token) : Prop := rest = []

variable {ts cut : List Token} {comma begun : Bool}

theorem exchanged_cutOff : Exchanged CutOff ts cut ↔ cut <+: ts := by
  constructor
  · rintro ⟨us, rest, rest', rfl, rfl, rfl⟩
    rw [append_nil]
    exact prefix_append us rest
  · rintro ⟨rest, rfl⟩
    exact ⟨cut, rest, [], rfl, (append_nil cut).symm, rfl⟩

theorem Lookahead.Grows.quiet {ask : Lookahead} (h : ask.Grows) : ask.Quiet CutOff := by
  rintro us rest rest' rfl hno
  rw [append_nil]
  exact h.of_isPrefix (prefix_append us rest) hno

/-! ## Types -/

namespace Rule

theorem typeEnds_cut (all : List Token) : TypeEnds all CutOff Always where
  sees _ := (ofHead_sees _).grows.quiet
  seesAdjacent _ := (ofHead_seesAdjacent _).grows.quiet
  seesKind _ := (ofHead_seesKind _).grows.quiet
  effect := ofHead_seesEffect.grows.quiet
  specifier := grows_seesTypeSpecifier.quiet
  someOrAny := grows_seesSomeOrAny.quiet
  member := ((ofHead_sees ".").grows.and (grows_isWordAt 1)).quiet
  qualified := ((ofHead_seesAdjacent ".").grows.and (grows_isWordAt 1)).quiet
  label := (ofHead_seesWord.grows.and (grows_textAt 1 (· == ":") rfl)).quiet
  labels := ((ofHead_seesWord.grows.and (grows_isWordAt 1)).and (grows_textAt 2 (· == ":") rfl)).quiet
  offEffect _ _ := trivial
  arrow _ hx _ hno := grows_seesFunctionArrow.quiet.exchanged hx hno

section

variable {ts rest : List Token} {f : List Tree} (hlex : ∀ t ∈ ts, t.Lexical)
include hlex

theorem Rereads.alone {pre : List Token → Prop} {fit : Exchange} {p q : Rule}
    (h : Rereads ts CutOff pre fit p q) (hin : pre ts) (hok : p ts = .ok (f, rest)) (hfit : fit rest []) :
    q (Tree.forestTokens f) = .ok (f, []) := by
  have hagain := h.again ⟨hlex, suffix_refl ts⟩ hin hok (exchanged_cutOff.mpr List.nil_prefix) hfit
  rwa [append_nil] at hagain

/-- **A type is read from its own tokens**, also with more levels to spare. -/
theorem type_alone {m n : Nat} (hle : m ≤ n) (hok : type m ts = .ok (f, rest)) :
    type n (Tree.forestTokens f) = .ok (f, []) :=
  (rereads_type (typeEnds_cut ts) hle).alone hlex trivial hok trivial

theorem parenType_alone {m n : Nat} (hle : m ≤ n) (hparen : sees "(" ts = true)
    (hok : parenType (type m) ts = .ok (f, rest)) : parenType (type n) (Tree.forestTokens f) = .ok (f, []) :=
  (rereads_parenType (typeEnds_cut ts) (lawful_type m) (consumes_type m)
    (rereads_type (typeEnds_cut ts) hle)).alone
    hlex hparen hok trivial

/-- Where no labels were read none are read over a cut. -/
theorem unlabelled_cut {cut : List Token} (hok : elementLabels ts = .ok ([], ts)) (hcut : cut <+: ts) :
    elementLabels cut = .ok ([], cut) :=
  have hrule : Rereads ts CutOff Anywhere Always elementLabels elementLabels :=
    rereads_elementLabels (typeEnds_cut ts)
  hrule.again ⟨hlex, suffix_refl ts⟩ trivial hok (exchanged_cutOff.mpr hcut) trivial

end

end Rule

/-! ## Runs of tokens -/

/-- The cut does not leave an opening brace alone. A run that ends before the observers of a property sees
both the brace and the word after it. -/
def Rule.OffBrace (cut : List Token) : Prop := ∀ t, cut = [t] → t.text ≠ "\x7b"

theorem grows_seesObservers : Grows seesObservers :=
  (ofHead_sees _).grows.and (grows_textAt 1 ["willSet", "didSet"].contains rfl)

theorem within_seesObservers : Within 2 seesObservers :=
  ((ofHead_sees _).within.mono (Nat.le_succ 1)).and
    (within_textAt 1 ["willSet", "didSet"].contains)

theorem runEnds_of_isPrefix {t : Token} (hcut : cut <+: ts)
    (h : runEnds comma begun (t :: cut) = true) : runEnds comma begun (t :: ts) = true := by
  have hclause : seesClauseEnd (t :: cut) = seesClauseEnd (t :: ts) := rfl
  have hobservers : seesObservers (t :: cut) = true → seesObservers (t :: ts) = true := fun hyes => by
    obtain ⟨more, rfl⟩ := hcut
    exact grows_seesObservers hyes more
  simp only [runEnds, hclause, Bool.or_eq_true, Bool.and_eq_true] at h ⊢
  refine h.imp_right ?_
  rintro ⟨hpunct, hends⟩
  exact ⟨hpunct, hends.imp_right fun hbegun => ⟨hbegun.1, hobservers hbegun.2⟩⟩

theorem runEnds_cut {t : Token} (hcut : cut <+: ts)
    (hfit : Rule.OffBrace (t :: cut)) (h : runEnds comma begun (t :: ts) = true) :
    runEnds comma begun (t :: cut) = true := by
  have hclause : seesClauseEnd (t :: cut) = seesClauseEnd (t :: ts) := rfl
  have hobservers : seesObservers (t :: cut) = seesObservers (t :: ts) := by
    cases cut with
    | cons u cut =>
      exact within_seesObservers.of_isPrefix (cons_prefix_cons.mpr ⟨rfl, hcut⟩) (by simp)
    | nil =>
      -- only a brace could have asked for the token behind it
      have hbrace : (t.text == "\x7b") = false := beq_eq_false_iff_ne.mpr (hfit t rfl)
      simp only [seesObservers, sees, List.head?_cons, Option.any_some, hbrace, Bool.false_and]
  simp only [runEnds, hclause, hobservers] at h ⊢
  exact h

theorem takeRun_cut {depth : Nat} {run rest : List Token}
    (h : takeRun comma begun depth ts = (run, rest)) (hcut : cut <+: rest) (hfit : Rule.OffBrace cut) :
    takeRun comma begun depth (run ++ cut) = (run, cut) := by
  induction ts generalizing begun depth run with
  | nil =>
    cases h
    rw [prefix_nil.mp hcut]
    rfl
  | cons t ts ih =>
    rw [takeRun] at h
    by_cases hend : (depth == 0 && runEnds comma begun (t :: ts)) = true
    · -- the run has ended before `t`, and it ends there if `t` is left
      rw [if_pos hend] at h
      cases h
      rw [nil_append]
      cases cut with
      | nil => rfl
      | cons u cut =>
        obtain ⟨rfl, htail⟩ := cons_prefix_cons.mp hcut
        rw [Bool.and_eq_true] at hend
        rw [takeRun, if_pos (by rw [Bool.and_eq_true]; exact ⟨hend.1, runEnds_cut htail hfit hend.2⟩)]
    · rw [if_neg hend] at h
      obtain ⟨rfl, rfl⟩ := Prod.mk.inj h
      have hstarts : (takeRun comma true (depthAfter depth t) ts).1 ++ cut <+: ts := by
        obtain ⟨more, hmore⟩ := hcut
        exact ⟨more, by rw [append_assoc, hmore, takeRun_append]⟩
      have hend' : ¬ (depth == 0 && runEnds comma begun
          (t :: ((takeRun comma true (depthAfter depth t) ts).1 ++ cut))) = true := by
        rw [Bool.and_eq_true] at hend ⊢
        exact fun hends => hend ⟨hends.1, runEnds_of_isPrefix hstarts hends.2⟩
      rw [cons_append, takeRun, if_neg hend', ih rfl]

theorem takeRequirements_cut {last : String} {depth : Nat} {run rest : List Token}
    (h : takeRequirements last begun depth ts = (run, rest)) (hcut : cut <+: rest) :
    takeRequirements last begun depth (run ++ cut) = (run, cut) := by
  -- whether the requirements end is asked of the next token alone
  have hends : ∀ last begun t us vs,
      requirementsEnd last begun (t :: us) = requirementsEnd last begun (t :: vs) := fun _ _ _ _ _ => rfl
  induction ts generalizing last begun depth run with
  | nil =>
    cases h
    rw [prefix_nil.mp hcut]
    rfl
  | cons t ts ih =>
    rw [takeRequirements] at h
    by_cases hend : (depth == 0 && requirementsEnd last begun (t :: ts)) = true
    · rw [if_pos hend] at h
      cases h
      rw [nil_append]
      cases cut with
      | nil => rfl
      | cons u cut =>
        obtain ⟨rfl, hcut⟩ := cons_prefix_cons.mp hcut
        rw [takeRequirements, hends _ _ _ cut ts, if_pos hend]
    · rw [if_neg hend] at h
      obtain ⟨rfl, rfl⟩ := Prod.mk.inj h
      rw [cons_append, takeRequirements, hends _ _ _ _ ts, if_neg hend]
      simp only [ih rfl]

namespace Rule

variable {ts cut : List Token}

/-- A cut is off a brace where the next token is none. -/
theorem offBrace_of_isPrefix (hcut : cut <+: ts) (h : sees "\x7b" ts = false) : OffBrace cut := by
  rintro t rfl hbrace
  have hsees := (ofHead_sees "\x7b").grows.of_isPrefix hcut h
  rw [sees, List.head?_cons, Option.any_some, hbrace, beq_self_eq_true] at hsees
  cases hsees

theorem offBrace_of_length (h : 2 ≤ cut.length) : OffBrace cut := by
  rintro t rfl
  exact absurd h (by simp)

/-! ## Items -/

/-- The cut leaves the end of a block or of a conditional as its last token. -/
def Closed (cut : List Token) : Prop :=
  ∃ t, cut.getLast? = some t ∧ (t.text = "\x7d" ∨ t.text = "#endif")

/-- Nothing is left, or the end of a block or a conditional is. -/
def Done (cut : List Token) : Prop := cut = [] ∨ Closed cut

theorem Closed.append (h : Closed cut) (us : List Token) : Closed (us ++ cut) := by
  obtain ⟨t, ht, htext⟩ := h
  exact ⟨t, by rw [List.getLast?_append, ht]; rfl, htext⟩

theorem Done.cons {t : Token} (htext : t.text = "\x7d" ∨ t.text = "#endif") (h : Done cut) :
    Closed (t :: cut) := by
  rcases h with rfl | h
  · exact ⟨t, rfl, htext⟩
  · exact h.append [t]

theorem Closed.offBrace (h : Closed cut) : OffBrace cut := by
  rintro t rfl hbrace
  obtain ⟨u, hu, htext⟩ := h
  rw [List.getLast?_singleton] at hu
  cases hu
  rw [hbrace] at htext
  exact absurd htext (by decide)

theorem Done.offBrace (h : Done cut) : OffBrace cut := by
  rcases h with rfl | h
  · rintro t hnil
    cases hnil
  · exact h.offBrace

/-- The end of a block or of a conditional is no word. -/
theorem Closed.not_isWord (hlex : ∀ t ∈ cut, t.Lexical) (h : Closed cut) :
    ∃ t, cut.getLast? = some t ∧ t.isWord = false := by
  obtain ⟨t, ht, htext⟩ := h
  have hlexical := hlex t (mem_of_getLast? ht)
  refine ⟨t, ht, ?_⟩
  rcases htext with htext | htext
  · rw [hlexical.isWord_eq (c := '\x7d') (by rw [htext]; rfl)]
    decide
  · rw [hlexical.isWord_eq (c := '#') (by rw [htext]; rfl)]
    decide

/-- What is no declaration does not become one by a cut that leaves the end of a block: its keyword would
have a token behind it. -/
theorem declarationStart?_none_cut (hlex : ∀ t ∈ ts, t.Lexical)
    (h : declarationStart? ts = none) (hcut : cut <+: ts) (hfit : Closed cut) :
    declarationStart? cut = none := by
  cases hstart : declarationStart? cut with
  | none => rfl
  | some start =>
    obtain ⟨t, ht, hword⟩ := hfit.not_isWord fun t ht => hlex t (hcut.subset ht)
    obtain ⟨us, rfl, hagain⟩ := declarationStart?_alike hstart
    have hlen : 2 ≤ start.length := by
      obtain ⟨mid, -, -, hsees⟩ := declarationStart?_eq_some hstart
      match start with
      | [] => exact absurd hsees (by decide)
      | [keyword] =>
        rw [List.getLast?_append, List.getLast?_singleton] at ht
        cases ht
        rw [seesDeclarationKeyword, Bool.and_eq_true, Bool.and_eq_true] at hsees
        rw [show seesWord [t] = t.isWord from rfl, hword] at hsees
        cases hsees.1.1
      | keyword :: next :: tail => exact Nat.succ_le_succ (Nat.succ_le_succ (Nat.zero_le _))
    obtain ⟨more, rfl⟩ := hcut
    rw [append_assoc, hagain _ (alike_append hlen more)] at h
    cases h

theorem itemEnds_cut (all : List Token) :
    ItemEnds all CutOff (fun _ => OffBrace) (fun _ => Closed) (fun _ => Done) where
  types := typeEnds_cut all
  sees _ := (ofHead_sees _).grows.quiet
  isWordAt n := (grows_isWordAt n).quiet
  textAt n _ hq _ := (grows_textAt n _ hq).quiet
  punct := (grows_at 1 _).quiet
  operators := (ofHead_seesOperator.and ⟨_, fun _ => rfl⟩).grows.quiet
  line := (OfHead.not (a := seesNewline) ⟨_, fun _ => rfl⟩).grows.quiet
  exprRun := ⟨lawful_exprRun.keeps, fun _ _ _ _ _ _ h hx hfit => by
    obtain ⟨rfl, rfl⟩ := split_eq_ok h
    rw [Tree.forestTokens_map_token]
    exact run_ok (congrArg Except.ok (takeRun_cut rfl (exchanged_cutOff.mp hx) hfit))⟩
  statementRun := ⟨lawful_statementRun.keeps, fun _ _ _ _ _ _ h hx hfit => by
    obtain ⟨rfl, rfl⟩ := split_eq_ok h
    rw [Tree.forestTokens_map_token]
    exact run_ok (congrArg Except.ok (takeRun_cut rfl (exchanged_cutOff.mp hx) hfit))⟩
  requirements := ⟨lawful_requirements.keeps, fun _ _ _ _ _ _ h hx _ => by
    obtain ⟨rfl, rfl⟩ := split_eq_ok h
    rw [Tree.forestTokens_map_token]
    exact run_ok (congrArg Except.ok (takeRequirements_cut rfl (exchanged_cutOff.mp hx)))⟩
  undeclared htail hx hfit h :=
    declarationStart?_none_cut (fun _ => htail.mem) h (exchanged_cutOff.mp hx) hfit
  offBrace hx h := offBrace_of_isPrefix (exchanged_cutOff.mp hx) h
  twoTokens _ _ hlen := offBrace_of_length (by rw [length_append]; omega)
  item_prepend us h := h.append us
  item_done := .inr
  done_expr := Done.offBrace
  done_item htext h := h.cons htext

/-- **A declaration is an item of its own.** The tokens of an item that is no statement are read as that item
and nothing else. -/
theorem item_alone {m n : Nat} (hle : m ≤ n) {rest : List Token} {kind : NodeKind} {cs : List Tree}
    (hlex : ∀ t ∈ ts, t.Lexical) (h : item m ts = .ok ([.node kind cs], rest)) (hkind : kind ≠ .statement) :
    item n (Tree.node kind cs).tokens = .ok ([.node kind cs], []) := by
  cases m with
  | zero => cases h
  | succ m =>
    cases n with
    | zero => exact absurd hle (Nat.not_succ_le_zero m)
    | succ n =>
      have hle' := Nat.le_of_succ_le_succ hle
      have hends := itemEnds_cut ts
      have hne : ts ≠ [] := by
        rintro rfl
        rw [item, itemBody_statement rfl rfl declarationStart?_nil] at h
        obtain ⟨ds, heq⟩ := statement_eq_ok h
        cases heq
        exact hkind rfl
      have hagain := itemBody_again hends (lawful_type m) (consumes_type m) (rereads_type hends.types hle')
        (lawful_item m) (consumes_item m) (rereads_item hends hle') ⟨hlex, suffix_refl ts⟩ hne h
        (exchanged_cutOff.mpr List.nil_prefix) (.inl rfl) fun cs hcs => by
          cases hcs
          exact absurd rfl hkind
      rw [Tree.forestTokens_singleton, append_nil] at hagain
      exact hagain

end Rule

end SwiftOutline
