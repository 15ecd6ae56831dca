import SwiftOutline.Proofs.Grammar.RereadTypes

/-!
# `Extend` — types whose input goes on

A rule that has read some trees and left a rest reads the same trees when other tokens are put behind the
rest, if nothing that the rule asks is answered by these tokens. A type goes on with no comma, closing
parenthesis, equals sign or ellipsis, so a list of elements can be put together from types that were read
elsewhere. Nor does it go on with `#endif`, so a text can be put into conditional compilation.
-/

namespace SwiftOutline

open Lookahead List

/-! ## Input that goes on -/

/-- The tokens stand where the input has ended. -/
def Followed (more rest rest' : List Token) : Prop := rest = [] ∧ rest' = more

theorem exchanged_followed {more ts ts' : List Token} :
    Exchanged (Followed more) ts ts' ↔ ts' = ts ++ more := by
  constructor
  · rintro ⟨us, rest, rest', rfl, rfl, rfl, rfl⟩
    rw [append_nil]
  · rintro rfl
    exact ⟨ts, [], more, (append_nil ts).symm, rfl, rfl, rfl⟩

theorem Rule.Rereads.extended {all more : List Token} {pre : List Token → Prop} {fit : Exchange}
    {p q : Rule} (h : Rereads all (Followed more) pre fit p q) {ts rest : List Token} {f : List Tree}
    (htail : Token.Tail all ts) (hin : pre ts) (hok : p ts = .ok (f, rest)) (hfit : fit rest (rest ++ more)) :
    q (ts ++ more) = .ok (f, rest ++ more) := by
  have hagain := h.again htail hin hok (exchanged_followed.mpr rfl) hfit
  rwa [← append_assoc, h.keeps hok] at hagain

/-! ## Tokens that no type goes on with -/

/-- The first token ends an element of a list, its type, or its default value, or it ends conditional
compilation. -/
def Stops (more : List Token) : Prop :=
  ∃ t us, more = t :: us ∧ t.text ∈ [",", ")", "=", "...", "#endif"] ∧
    t.kind ∈ [.punct, .ellipsis, .poundDirective]

/-- The answer is the same with more tokens behind. -/
def Lookahead.Steady (more : List Token) (ask : Lookahead) : Prop := ∀ ts, ask (ts ++ more) = ask ts

section

variable {more : List Token}

variable {ask : Lookahead} {text : String}

theorem Lookahead.OfHead.steady (h : OfHead ask) (hmore : ask more = false) : Steady more ask := by
  obtain ⟨q, hq⟩ := h
  intro ts
  cases ts with
  | nil => rw [nil_append, hmore, hq, List.head?_nil, Option.any_none]
  | cons t ts => rw [hq, hq, cons_append, List.head?_cons, List.head?_cons]

theorem Lookahead.Steady.quiet (h : Steady more ask) : ask.Quiet (Followed more) := by
  rintro us rest rest' ⟨rfl, rfl⟩ hno
  rw [append_nil] at hno
  exact (h us).trans hno

theorem Lookahead.Steady.or {a b : Lookahead} (ha : Steady more a) (hb : Steady more b) :
    Steady more fun ts => a ts || b ts := by
  intro ts
  simp only [ha ts, hb ts]

/-- A question about the next `n` tokens is steady if it is on shorter input. -/
theorem Lookahead.Within.steady {n : Nat} (h : Within n ask)
    (hshort : ∀ ts, ts.length < n → ask (ts ++ more) = ask ts) : Steady more ask := by
  intro ts
  by_cases hn : n ≤ ts.length
  · exact h hn more
  · exact hshort ts (Nat.not_le.mp hn)

variable (hmore : Stops more)
include hmore

/-- No text but those that end an element is seen. -/
theorem Stops.sees (h : text ∉ [",", ")", "=", "...", "#endif"]) : sees text more = false := by
  obtain ⟨t, us, rfl, htext, -⟩ := hmore
  show (t.text == text) = false
  rw [beq_eq_false_iff_ne]
  rintro rfl
  exact h htext

theorem Stops.seesAdjacent (h : text ∉ [",", ")", "=", "...", "#endif"]) :
    seesAdjacent text more = false := by
  have hsees := hmore.sees h
  obtain ⟨t, us, rfl, -⟩ := hmore
  have htext : (t.text == text) = false := hsees
  show (t.text == text && t.isAdjacent) = false
  rw [htext, Bool.false_and]

theorem Stops.seesKind {kind : TokenKind} (h : kind ∉ [.punct, .ellipsis, .poundDirective]) :
    seesKind kind more = false := by
  obtain ⟨t, us, rfl, -, hkind⟩ := hmore
  show (t.kind == kind) = false
  rw [beq_eq_false_iff_ne]
  rintro rfl
  exact h hkind

/-- The token behind the others is no word. -/
theorem Stops.isWordAt (ts : List Token) : isWordAt ts.length (ts ++ more) = false := by
  obtain ⟨t, us, rfl, -, hkind⟩ := hmore
  rw [isWordAt, List.getElem?_append_right (Nat.le_refl _), Nat.sub_self]
  show t.isWord = false
  simp only [mem_cons, not_mem_nil, or_false] at hkind
  rcases hkind with hkind | hkind | hkind <;> rw [Token.isWord, hkind] <;> rfl

/-- The token behind the others has none of these texts. -/
theorem Stops.contains_textAt (ts : List Token) (texts : List String)
    (htexts : [",", ")", "=", "...", "#endif"].all (fun text => !texts.contains text) = true) :
    texts.contains (textAt ts.length (ts ++ more)) = false := by
  obtain ⟨t, us, rfl, htext, -⟩ := hmore
  rw [textAt, List.getElem?_append_right (Nat.le_refl _), Nat.sub_self]
  exact (Bool.not_eq_true' _).mp (all_eq_true.mp htexts t.text htext)

theorem Stops.steady_sees (h : text ∉ [",", ")", "=", "...", "#endif"]) :
    Steady more (SwiftOutline.sees text) :=
  (ofHead_sees text).steady (hmore.sees h)

theorem Stops.steady_seesAdjacent (h : text ∉ [",", ")", "=", "...", "#endif"]) :
    Steady more (SwiftOutline.seesAdjacent text) :=
  (ofHead_seesAdjacent text).steady (hmore.seesAdjacent h)

theorem Stops.steady_seesKind {kind : TokenKind} (h : kind ∉ [.punct, .ellipsis, .poundDirective]) :
    Steady more (SwiftOutline.seesKind kind) :=
  (ofHead_seesKind kind).steady (hmore.seesKind h)

theorem Stops.offEffect : Rule.OffEffect more := hmore.contains_textAt [] _ (by decide)

theorem Stops.steady_seesEffect : Steady more seesEffect := by
  refine ofHead_seesEffect.steady ?_
  rw [seesEffect, show _ = false from hmore.offEffect, Bool.false_and]

theorem Stops.steady_seesTypeSpecifier : Steady more seesTypeSpecifier := by
  refine Rule.within_seesTypeSpecifier.steady fun ts hlen => ?_
  match ts with
  | [] =>
    have htext : typeSpecifiers.contains (textAt 0 ([] ++ more)) = false :=
      hmore.contains_textAt [] _ (by decide)
    rw [seesTypeSpecifier, htext]
    rfl
  | [t] =>
    have hword : SwiftOutline.isWordAt 1 ([t] ++ more) = false := hmore.isWordAt [t]
    have htext : ["(", "[", "@"].contains (textAt 1 ([t] ++ more)) = false :=
      hmore.contains_textAt [t] _ (by decide)
    rw [seesTypeSpecifier, seesTypeSpecifier, hword, htext]
    rfl

theorem Stops.steady_seesSomeOrAny : Steady more seesSomeOrAny := by
  refine Rule.within_seesSomeOrAny.steady fun ts hlen => ?_
  match ts with
  | [] =>
    rw [nil_append, seesSomeOrAny, hmore.sees (by decide), hmore.sees (by decide)]
    rfl
  | [t] =>
    have hword : SwiftOutline.isWordAt 1 ([t] ++ more) = false := hmore.isWordAt [t]
    have htext : ["("].contains (textAt 1 ([t] ++ more)) = false := hmore.contains_textAt [t] _ (by decide)
    have hparen : (textAt 1 ([t] ++ more) == "(") = false := by simpa using htext
    rw [seesSomeOrAny, seesSomeOrAny, hword, hparen]
    rfl

/-- A dot with a word behind it. -/
theorem Stops.steady_dot {dot : Lookahead} (hdot : OfHead dot) (hsees : dot more = false) :
    Steady more fun ts => dot ts && SwiftOutline.isWordAt 1 ts := by
  have hwithin : Within 2 fun ts => dot ts && SwiftOutline.isWordAt 1 ts :=
    (hdot.within.mono (Nat.le_succ 1)).and (within_isWordAt 1)
  refine hwithin.steady fun ts hlen => ?_
  match ts with
  | [] =>
    have hnone : dot [] = false := by
      obtain ⟨q, hq⟩ := hdot
      rw [hq]
      rfl
    simp only [nil_append, hsees, hnone, Bool.false_and]
  | [t] =>
    have hword : SwiftOutline.isWordAt 1 ([t] ++ more) = false := hmore.isWordAt [t]
    have hnone : SwiftOutline.isWordAt 1 [t] = false := rfl
    show (dot ([t] ++ more) && SwiftOutline.isWordAt 1 ([t] ++ more)) =
      (dot [t] && SwiftOutline.isWordAt 1 [t])
    rw [hword, hnone, Bool.and_false, Bool.and_false]

theorem Stops.not_colon (ts : List Token) : (textAt ts.length (ts ++ more) == ":") = false := by
  simpa using hmore.contains_textAt ts [":"] (by decide)

theorem Stops.steady_label : Steady more fun ts => seesWord ts && textAt 1 ts == ":" := by
  have hwithin : Within 2 fun ts => seesWord ts && textAt 1 ts == ":" :=
    (ofHead_seesWord.within.mono (by decide)).and (within_textAt 1 (· == ":"))
  refine hwithin.steady fun ts hlen => ?_
  match ts with
  | [] => exact congrArg (· && _) (hmore.isWordAt [])
  | [t] => exact congrArg (_ && ·) (hmore.not_colon [t])

theorem Stops.steady_labels :
    Steady more fun ts => seesWord ts && SwiftOutline.isWordAt 1 ts && textAt 2 ts == ":" := by
  have hwithin : Within 3 fun ts => seesWord ts && SwiftOutline.isWordAt 1 ts && textAt 2 ts == ":" :=
    ((ofHead_seesWord.within.mono (by decide)).and ((within_isWordAt 1).mono (by decide))).and
      (within_textAt 2 (· == ":"))
  refine hwithin.steady fun ts hlen => ?_
  match ts with
  | [] => exact congrArg (· && _ && _) (hmore.isWordAt [])
  | [t] =>
    have hword : SwiftOutline.isWordAt 1 ([t] ++ more) = SwiftOutline.isWordAt 1 [t] := hmore.isWordAt [t]
    have hnone : SwiftOutline.isWordAt 1 [t] = false := rfl
    simp only [hword, hnone, Bool.and_false, Bool.false_and]
  | [t, u] => exact congrArg (_ && ·) (hmore.not_colon [t, u])

end

theorem Rule.OffEffect.append {ts more : List Token} (h : OffEffect ts) (hmore : OffEffect more) :
    OffEffect (ts ++ more) := by
  cases ts with
  | nil => exact hmore
  | cons t ts => exact h

/-! ## Types -/

section

variable {all more : List Token} (hmore : Stops more)
include hmore

/-- Such tokens do not answer how a type goes on, whatever fits behind the type. -/
theorem Stops.typeEnds_of {T : Exchange}
    (hoff : ∀ {ts ts'}, Exchanged (Followed more) ts ts' → Rule.OffEffect ts → T ts ts')
    (harrow : ∀ {ts ts'}, Token.Tail all ts → Exchanged (Followed more) ts ts' → T ts ts' →
      seesFunctionArrow ts = false → seesFunctionArrow ts' = false) :
    Rule.TypeEnds all (Followed more) T where
  sees h := (hmore.steady_sees h).quiet
  seesAdjacent h := (hmore.steady_seesAdjacent h).quiet
  seesKind h := (hmore.steady_seesKind h).quiet
  effect := hmore.steady_seesEffect.quiet
  specifier := hmore.steady_seesTypeSpecifier.quiet
  someOrAny := hmore.steady_seesSomeOrAny.quiet
  member := (hmore.steady_dot (ofHead_sees ".") (hmore.sees (by decide))).quiet
  qualified := (hmore.steady_dot (ofHead_seesAdjacent ".") (hmore.seesAdjacent (by decide))).quiet
  label := hmore.steady_label.quiet
  labels := hmore.steady_labels.quiet
  offEffect := hoff
  arrow := harrow

/-- Where no effect is ahead, what is put behind is no arrow. -/
theorem Stops.typeEnds (all : List Token) :
    Rule.TypeEnds all (Followed more) fun ts _ => Rule.OffEffect ts := by
  refine hmore.typeEnds_of (fun _ h => h) ?_
  intro ts ts' _ hx hoff hno
  rw [hoff.seesFunctionArrow] at hno
  rw [exchanged_followed.mp hx, (hoff.append hmore.offEffect).seesFunctionArrow]
  exact (hmore.steady_seesKind (by decide) ts).trans hno

variable {ts : List Token} (hlex : ∀ t ∈ ts, t.Lexical)
include hlex

/-- **A type is read again in front of tokens that no type goes on with.** -/
theorem Stops.type {n : Nat} {f : List Tree} (h : Rule.type n ts = .ok (f, [])) :
    Rule.type n (ts ++ more) = .ok (f, more) :=
  (Rule.rereads_type (hmore.typeEnds ts) (Nat.le_refl n)).extended ⟨hlex, suffix_refl ts⟩ trivial h rfl

theorem Stops.elementLabels {f : List Tree} {rest : List Token} (h : Rule.elementLabels ts = .ok (f, rest)) :
    Rule.elementLabels (ts ++ more) = .ok (f, rest ++ more) := by
  have hrule : Rule.Rereads ts (Followed more) Rule.Anywhere Rule.Always Rule.elementLabels
      Rule.elementLabels :=
    Rule.rereads_elementLabels (hmore.typeEnds ts)
  exact hrule.extended ⟨hlex, suffix_refl ts⟩ trivial h trivial

end

/-! ## Expressions -/

/-- A run that has ended before a comma or a closing parenthesis ends before any such token. -/
theorem takeRun_before {begun : Bool} {depth : Nat} {run rest rest' : List Token} {t t' : Token}
    (h : takeRun true begun depth (run ++ t :: rest) = (run, t :: rest)) (ht : t.text = "," ∨ t.text = ")")
    (hkind : t'.kind = .punct) (ht' : t'.text = "," ∨ t'.text = ")") (hbegun : run = [] → begun = true) :
    takeRun true begun depth (run ++ t' :: rest') = (run, t' :: rest') := by
  induction run generalizing begun depth with
  | nil =>
    rw [nil_append, takeRun] at h ⊢
    split at h
    · next hend =>
      have hend' : runEnds true begun (t' :: rest') = true := by
        rw [runEnds, hkind, hbegun rfl]
        rcases ht' with ht' | ht' <;> simp [ht']
      rw [Bool.and_eq_true] at hend
      rw [hend.1, hend', if_pos (by rfl)]
    · cases h
  | cons e run ih =>
    -- behind a brace neither token opens observers
    have hobservers : ∀ u : Token, u.text = "," ∨ u.text = ")" → ∀ rest,
        seesObservers (e :: (run ++ u :: rest)) =
          (sees "\x7b" (e :: run) && ["willSet", "didSet"].contains (textAt 0 run)) := by
      intro u hu rest
      cases run with
      | nil =>
        show (_ && ["willSet", "didSet"].contains u.text) = (_ && ["willSet", "didSet"].contains "")
        rcases hu with hu | hu <;> rw [hu] <;> rfl
      | cons v run => rfl
    have hends : runEnds true begun (e :: (run ++ t' :: rest')) =
        runEnds true begun (e :: (run ++ t :: rest)) := by
      have hclause : seesClauseEnd (e :: (run ++ t' :: rest')) = seesClauseEnd (e :: (run ++ t :: rest)) :=
        rfl
      rw [runEnds, runEnds, hclause, hobservers t' ht' rest', hobservers t ht rest]
    rw [cons_append, takeRun] at h ⊢
    rw [hends]
    split at h
    · cases h
    · next hgoes =>
      obtain ⟨hrun, hrest⟩ := Prod.mk.inj h
      have htail : takeRun true true (depthAfter depth e) (run ++ t :: rest) = (run, t :: rest) :=
        Prod.ext (List.cons.inj hrun).2 hrest
      rw [if_neg hgoes, ih htail fun _ => rfl]

namespace Rule

theorem ne_nil_of_separator {closer what : String} {ts rest : List Token} {f : List Tree}
    (h : either (sees ",") bump (require (sees closer) what nothing) ts = .ok (f, rest)) : ts ≠ [] := by
  rcases sees_of_separator h with hsees | hsees
  · exact (ofHead_sees ",").ne_nil hsees
  · exact (ofHead_sees closer).ne_nil hsees

end Rule

end SwiftOutline
