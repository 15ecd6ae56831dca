import SwiftOutline.Proofs.Grammar.Progress
import SwiftOutline.Proofs.Token.Slice

/-!
# `Reread` — rules whose rest is exchanged

A rule that has read some trees and left a rest should read the same trees where another rest stands
behind them: where the rest is cut short, or where more follows. It need not. What it has seen in the
rest it misses once that is cut off, and what it has not seen it may find in what follows. `Rule.Rereads`
says for which exchanges a rule reads the same again.
-/

namespace SwiftOutline

open SwiftOutline.Tree Lookahead List

/-! ## Questions -/

namespace Lookahead

/-- A yes stays a yes when more tokens follow. -/
def Grows (ask : Lookahead) : Prop :=
  ∀ ⦃ts : List Token⦄, ask ts = true → ∀ more, ask (ts ++ more) = true

/-- The next `n` tokens decide the answer, if there are as many. -/
def Within (n : Nat) (ask : Lookahead) : Prop :=
  ∀ ⦃ts : List Token⦄, n ≤ ts.length → ∀ more, ask (ts ++ more) = ask ts

/-- The question is about the next token alone, and the answer is no if there is none. -/
def OfHead (ask : Lookahead) : Prop := ∃ q : Token → Bool, ∀ ts, ask ts = ts.head?.any q

/-! ### Questions about the next token -/

theorem ofHead_sees (text : String) : OfHead (sees text) := ⟨_, fun _ => rfl⟩

theorem ofHead_seesAdjacent (text : String) : OfHead (seesAdjacent text) := ⟨_, fun _ => rfl⟩

theorem ofHead_seesKind (kind : TokenKind) : OfHead (seesKind kind) := ⟨_, fun _ => rfl⟩

theorem ofHead_seesOperator : OfHead seesOperator := ⟨_, fun _ => rfl⟩

theorem ofHead_seesWord : OfHead seesWord :=
  ⟨Token.isWord, fun ts => by cases ts <;> rfl⟩

variable {a b ask : Lookahead} {ts : List Token} {n : Nat}

/-- Two questions about the next token are one. -/
theorem OfHead.and (ha : OfHead a) (hb : OfHead b) : OfHead fun ts => a ts && b ts := by
  obtain ⟨q, hq⟩ := ha
  obtain ⟨r, hr⟩ := hb
  refine ⟨fun t => q t && r t, fun ts => ?_⟩
  simp only [hq, hr]
  cases ts <;> rfl

theorem OfHead.or (ha : OfHead a) (hb : OfHead b) : OfHead fun ts => a ts || b ts := by
  obtain ⟨q, hq⟩ := ha
  obtain ⟨r, hr⟩ := hb
  refine ⟨fun t => q t || r t, fun ts => ?_⟩
  simp only [hq, hr]
  cases ts <;> rfl

theorem ofHead_seesClauseEnd : OfHead seesClauseEnd :=
  ((ofHead_sees "#elseif").or (ofHead_sees "#else")).or (ofHead_sees "#endif")

theorem ofHead_seesThrows : OfHead seesThrows :=
  (ofHead_sees "throws").or (ofHead_sees "rethrows")

/-- The effects are told by the next token. -/
theorem ofHead_seesEffect : OfHead seesEffect := by
  refine OfHead.and (a := fun ts => ["async", "reasync", "throws", "rethrows"].contains (textAt 0 ts))
    ⟨fun t => ["async", "reasync", "throws", "rethrows"].contains t.text, fun ts => ?_⟩ ofHead_seesWord
  cases ts with
  | nil => rfl
  | cons t ts => rfl

/-- A token stands ahead and is not of the sort that `a` asks for. -/
theorem OfHead.not (ha : OfHead a) : OfHead fun ts => !(seesEnd ts || a ts) := by
  obtain ⟨q, hq⟩ := ha
  refine ⟨fun t => !q t, fun ts => ?_⟩
  simp only [hq]
  cases ts <;> rfl

/-- At the end the answer is no. -/
theorem OfHead.ne_nil (h : OfHead ask) (hts : ask ts = true) : ts ≠ [] := by
  rintro rfl
  obtain ⟨q, hq⟩ := h
  rw [hq] at hts
  cases hts

theorem OfHead.exists_cons (h : OfHead ask) (hts : ask ts = true) : ∃ t rest, ts = t :: rest :=
  exists_cons_of_ne_nil (h.ne_nil hts)

/-- One token is looked at. -/
theorem OfHead.within (h : OfHead ask) : Within 1 ask := by
  obtain ⟨q, hq⟩ := h
  intro ts hts more
  cases ts with
  | nil => cases hts
  | cons t ts => rw [hq, hq, cons_append, List.head?_cons, List.head?_cons]

/-- A yes about the next token stays (`OfHead`). -/
theorem OfHead.grows (h : OfHead ask) : Grows ask := by
  intro ts hts more
  rw [h.within (length_pos_iff.mpr (h.ne_nil hts)) more]
  exact hts

/-! ### Questions about later tokens -/

theorem Grows.and (ha : Grows a) (hb : Grows b) : Grows fun ts => a ts && b ts := by
  intro ts hts more
  rw [Bool.and_eq_true] at hts ⊢
  exact ⟨ha hts.1 more, hb hts.2 more⟩

theorem Grows.or (ha : Grows a) (hb : Grows b) : Grows fun ts => a ts || b ts := by
  intro ts hts more
  rw [Bool.or_eq_true] at hts ⊢
  exact hts.imp (ha · more) (hb · more)

theorem Within.and (ha : Within n a) (hb : Within n b) : Within n fun ts => a ts && b ts := by
  intro ts hts more
  simp only [ha hts more, hb hts more]

theorem Within.or (ha : Within n a) (hb : Within n b) : Within n fun ts => a ts || b ts := by
  intro ts hts more
  simp only [ha hts more, hb hts more]

/-- To look at fewer tokens is to look at no more. -/
theorem Within.mono {m : Nat} (h : Within m ask) (hmn : m ≤ n) : Within n ask :=
  fun _ hts more => h (Nat.le_trans hmn hts) more

/-- A question about the `n`th token ahead that only a token can answer with yes. -/
theorem grows_at (n : Nat) (q : Token → Bool) : Grows fun ts => ts[n]?.any q := by
  intro ts hts more
  simp only at hts ⊢
  by_cases hn : n < ts.length
  · rw [List.getElem?_append_left hn]
    exact hts
  · rw [List.getElem?_eq_none (Nat.not_lt.mp hn)] at hts
    cases hts

/-- The `n`th token is among the first `n + 1`. -/
theorem within_at (n : Nat) (q : Token → Bool) : Within (n + 1) fun ts => ts[n]?.any q := by
  intro ts hts more
  simp only [List.getElem?_append_left (show n < ts.length from hts)]

theorem grows_isWordAt (n : Nat) : Grows (isWordAt n) := grows_at n Token.isWord

theorem within_isWordAt (n : Nat) : Within (n + 1) (isWordAt n) := within_at n Token.isWord

/-- A token that is there stays where it is. -/
theorem textAt_append (h : n < ts.length) (more : List Token) : textAt n (ts ++ more) = textAt n ts := by
  rw [textAt, textAt, List.getElem?_append_left h]

/-- Past the end of the input there is no text, so a question that refuses the empty text grows. -/
theorem grows_textAt (n : Nat) (q : String → Bool) (hq : q "" = false) : Grows fun ts => q (textAt n ts) := by
  intro ts hts more
  simp only at hts ⊢
  by_cases hn : n < ts.length
  · rw [textAt_append hn]
    exact hts
  · rw [textAt, List.getElem?_eq_none (Nat.not_lt.mp hn)] at hts
    rw [show q "" = true from hts] at hq
    cases hq

theorem within_textAt (n : Nat) (q : String → Bool) : Within (n + 1) fun ts => q (textAt n ts) := by
  intro ts hts more
  simp only [textAt_append (show n < ts.length from hts)]

/-- A no stays when the input is cut off. -/
theorem Grows.of_isPrefix (h : Grows ask) {cut : List Token} (hcut : cut <+: ts)
    (hts : ask ts = false) : ask cut = false := by
  obtain ⟨more, rfl⟩ := hcut
  cases hask : ask cut with
  | false => rfl
  | true =>
    rw [h hask more] at hts
    cases hts

/-- What is looked at is all in the prefix. -/
theorem Within.of_isPrefix (h : Within n ask) {cut : List Token}
    (hcut : cut <+: ts) (hn : n ≤ cut.length) : ask cut = ask ts := by
  obtain ⟨more, rfl⟩ := hcut
  exact (h hn more).symm

end Lookahead

/-! ## Exchanges -/

/-- Which tokens may take the place of which. -/
abbrev Exchange := List Token → List Token → Prop

/-- The lists begin with the same tokens. Behind these stands `rest` in the one and `rest'` in the other,
and `E` allows that the second takes the place of the first. -/
def Exchanged (E : Exchange) (ts ts' : List Token) : Prop :=
  ∃ us rest rest', ts = us ++ rest ∧ ts' = us ++ rest' ∧ E rest rest'

/-- The lists begin with the same token. -/
def SameHead (ts ts' : List Token) : Prop := ∃ t us us', ts = t :: us ∧ ts' = t :: us'

section

variable {E : Exchange} {ts ts' : List Token}

/-- What is read in front of both stays. -/
theorem Exchanged.prepend (h : Exchanged E ts ts') (us : List Token) :
    Exchanged E (us ++ ts) (us ++ ts') := by
  obtain ⟨vs, rest, rest', rfl, rfl, hE⟩ := h
  exact ⟨us ++ vs, rest, rest', (append_assoc ..).symm, (append_assoc ..).symm, hE⟩

/-- With tokens in front the heads agree still. -/
theorem SameHead.prepend (h : SameHead ts ts') (us : List Token) : SameHead (us ++ ts) (us ++ ts') := by
  cases us with
  | nil => exact h
  | cons u us => exact ⟨u, _, _, rfl, rfl⟩

theorem sameHead_append {us : List Token} (h : us ≠ []) (ts ts' : List Token) :
    SameHead (us ++ ts) (us ++ ts') := by
  obtain ⟨u, us, rfl⟩ := exists_cons_of_ne_nil h
  exact ⟨u, _, _, rfl, rfl⟩

theorem SameHead.ne_nil (h : SameHead ts ts') : ts ≠ [] := by
  obtain ⟨t, us, us', rfl, -⟩ := h
  exact cons_ne_nil t us

/-- Tokens that change places have the same first token, and may do so behind any others. -/
structure Firm (fit : Exchange) : Prop where
  sameHead : ∀ ⦃ts ts'⦄, fit ts ts' → SameHead ts ts'
  prepend : ∀ ⦃us ts ts'⦄, fit ts ts' → fit (us ++ ts) (us ++ ts')

theorem firm_sameHead : Firm SameHead := ⟨fun _ _ => id, fun us _ _ h => h.prepend us⟩

namespace Lookahead

variable {ask a b : Lookahead}

/-- A no stays a no after an exchange. -/
def Quiet (E : Exchange) (ask : Lookahead) : Prop :=
  ∀ ⦃us rest rest'⦄, E rest rest' → ask (us ++ rest) = false → ask (us ++ rest') = false

/-- A no stays after the exchange. -/
theorem Quiet.exchanged (h : ask.Quiet E) (hx : Exchanged E ts ts') (hno : ask ts = false) :
    ask ts' = false := by
  obtain ⟨us, rest, rest', rfl, rfl, hE⟩ := hx
  exact h hE hno

theorem Quiet.and (ha : a.Quiet E) (hb : b.Quiet E) : Quiet E fun ts => a ts && b ts := by
  intro us rest rest' hE hno
  rw [Bool.and_eq_false_iff] at hno ⊢
  exact hno.imp (ha hE) (hb hE)

theorem Quiet.or (ha : a.Quiet E) (hb : b.Quiet E) : Quiet E fun ts => a ts || b ts := by
  intro us rest rest' hE hno
  rw [Bool.or_eq_false_iff] at hno ⊢
  exact hno.imp (ha hE) (hb hE)

/-- The next token is the same, so the answer is. -/
theorem OfHead.same (h : ask.OfHead) (hs : SameHead ts ts') : ask ts' = ask ts := by
  obtain ⟨q, hq⟩ := h
  obtain ⟨t, us, us', rfl, rfl⟩ := hs
  rw [hq, hq, List.head?_cons, List.head?_cons]

theorem Within.same {n : Nat} (h : ask.Within n) {us : List Token} (hn : n ≤ us.length)
    (ts ts' : List Token) : ask (us ++ ts') = ask (us ++ ts) := by
  rw [h hn, h hn]

/-- The next token and the one behind it are the same. -/
theorem Within.same_second (h : ask.Within 2) (t : Token) (hs : SameHead ts ts') :
    ask (t :: ts') = ask (t :: ts) := by
  obtain ⟨u, us, us', rfl, rfl⟩ := hs
  exact h.same (show 2 ≤ [t, u].length from Nat.le_refl 2) us us'

end Lookahead

end

/-! ## Rules with another rest -/

/-- The tokens are the last ones of `all`, whose tokens are tokens by themselves. -/
structure Token.Tail (all ts : List Token) : Prop where
  lexical : ∀ t ∈ all, t.Lexical
  suffix : ts <:+ all

namespace Token.Tail

variable {all ts : List Token}

theorem mem (h : Tail all ts) {t : Token} (ht : t ∈ ts) : t.Lexical := h.lexical t (h.suffix.subset ht)

theorem rest {p : Rule} {f : List Tree} {rest : List Token} (h : Tail all ts) (hp : p.Keeps)
    (hok : p ts = .ok (f, rest)) : Tail all rest :=
  ⟨h.lexical, List.IsSuffix.trans ⟨forestTokens f, hp hok⟩ h.suffix⟩

end Token.Tail

namespace Rule

/-- Nothing is asked of the tokens. -/
def Anywhere (_ : List Token) : Prop := True

/-- There is a token. -/
def Before (ts : List Token) : Prop := ts ≠ []

/-- The answer is yes. -/
def Asked (ask : Lookahead) (ts : List Token) : Prop := ask ts = true

/-- Every exchange is fit. -/
def Always (_ _ : List Token) : Prop := True

/-- **A rule read again with another rest.** If `p` reads trees from an input with the property `pre`,
then `q` reads the same trees from their tokens, where a rest stands behind them that an exchange allows
and that is fit. The two rules differ in their budgets at most. -/
structure Rereads (all : List Token) (E : Exchange) (pre : List Token → Prop)
    (fit : Exchange) (p q : Rule) : Prop where
  keeps : Keeps p
  again : ∀ ⦃ts f rest rest'⦄, Token.Tail all ts → pre ts → p ts = .ok (f, rest) → Exchanged E rest rest' →
    fit rest rest' → q (forestTokens f ++ rest') = .ok (f, rest')

section

variable {all : List Token} {E fit fit' : Exchange} {pre pre' : List Token → Prop}
  {p p' q q' : Rule} {ask : Lookahead}

/-- For fewer inputs and fewer rests. -/
theorem Rereads.imp (h : Rereads all E pre fit p p') (hpre : ∀ ⦃ts⦄, pre' ts → pre ts)
    (hfit : ∀ ⦃ts ts'⦄, fit' ts ts' → fit ts ts') : Rereads all E pre' fit' p p' where
  keeps := h.keeps
  again _ _ _ _ htail hin hok hx hrest := h.again htail (hpre hin) hok hx (hfit hrest)

theorem Rereads.given (h : Rereads all E pre fit p p') (hpre : ∀ ⦃ts⦄, pre' ts → pre ts) :
    Rereads all E pre' fit p p' :=
  h.imp hpre fun _ _ => id

theorem Rereads.anywhere (h : Rereads all E Anywhere fit p p') : Rereads all E pre fit p p' :=
  h.given fun _ _ => trivial

theorem Rereads.always (h : Rereads all E pre Always p p') : Rereads all E pre fit p p' :=
  h.imp (fun _ => id) fun _ _ _ => trivial

variable {ts rest : List Token} {f : List Tree} {kind : NodeKind} {link : String}

/-- Rests that are exchanged make inputs that are (`Exchanged.prepend`). -/
theorem Keeps.exchanged (hp : Keeps p) {rest' : List Token} (h : p ts = .ok (f, rest))
    (hx : Exchanged E rest rest') : Exchanged E ts (forestTokens f ++ rest') := by
  rw [← hp h]
  exact hx.prepend _

theorem Keeps.mem_of_rest (hp : Keeps p) (h : p ts = .ok (f, rest)) {t : Token} (ht : t ∈ rest) : t ∈ ts := by
  rw [← hp h]
  exact mem_append_right _ ht

/-- A rule that has read a token leaves it at the head of the input. -/
theorem Keeps.sameHead (hp : Keeps p) (h : p ts = .ok (f, rest)) (hlt : rest.length < ts.length)
    (rest' : List Token) : SameHead ts (forestTokens f ++ rest') := by
  rw [← hp h, length_append] at hlt
  rw [← hp h]
  exact sameHead_append (length_pos_iff.mp (Nat.pos_of_lt_add_left hlt)) _ _

/-- What reads nothing fits in front of every rest. -/
theorem rereads_nothing : Rereads all E pre fit nothing nothing where
  keeps := keeps_nothing
  again ts f rest rest' _ _ h _ _ := by
    cases h
    rfl

/-- A rule that always fails has nothing to read again. -/
theorem rereads_fail (what : String) (q : Rule) : Rereads all E pre fit (fail what) q where
  keeps := keeps_fail what
  again ts f rest rest' _ _ h _ _ := by cases h

theorem rereads_tooDeep (q : Rule) : Rereads all E pre fit tooDeep q where
  keeps := keeps_tooDeep
  again ts f rest rest' _ _ h _ _ := by cases h

/-- Tokens are read from the input, where there are as many. -/
theorem rereads_bumps {n : Nat} (hpre : ∀ ⦃ts⦄, pre ts → n ≤ ts.length) :
    Rereads all E pre fit (bumps n) (bumps n) where
  keeps := keeps_bumps n
  again ts f rest rest' _ hin h _ _ := by
    obtain ⟨rfl, rfl⟩ := bumps_eq_ok h
    have hlen : (ts.take n).length = n := length_take_of_le (hpre hin)
    rw [forestTokens_map_token, bumps_ok, take_left' hlen, drop_left' hlen]

/-- By `rereads_bumps`, as there is a token. -/
theorem rereads_bump (hask : ask.OfHead) : Rereads all E (Asked ask) fit bump bump :=
  rereads_bumps fun _ hin => length_pos_iff.mpr (hask.ne_nil hin)

theorem rereads_bump_before : Rereads all E Before fit bump bump :=
  rereads_bumps fun _ hin => length_pos_iff.mpr hin

/-- One rule after another. What the second one reads, with the new rest behind it, takes the place of
what the first has left, and must be fit for it. -/
theorem Rereads.seq (hp : Rereads all E pre fit p p') (hq : Rereads all E pre' fit' q q')
    (hlink : ∀ ⦃ts f mid g rest rest'⦄, Token.Tail all ts → pre ts → p ts = .ok (f, mid) →
      q mid = .ok (g, rest) → Exchanged E rest rest' → fit' rest rest' →
      fit mid (forestTokens g ++ rest') ∧ pre' mid) :
    Rereads all E pre fit' (p ++ q) (p' ++ q') where
  keeps := hp.keeps.seq hq.keeps
  again ts f rest rest' htail hin h hx hrest := by
    obtain ⟨f₁, mid, f₂, h₁, h₂, rfl⟩ := seq_eq_ok h
    obtain ⟨hmid, hmid'⟩ := hlink htail hin h₁ h₂ hx hrest
    rw [forestTokens_append, append_assoc]
    exact seq_ok (hp.again htail hin h₁ (hq.keeps.exchanged h₂ hx) hmid)
      (hq.again (htail.rest hp.keeps h₁) hmid' h₂ hx hrest)

/-- One rule after another, where every exchange is fit for the first. -/
theorem Rereads.andThen (hp : Rereads all E pre Always p p') (hq : Rereads all E Anywhere fit q q') :
    Rereads all E pre fit (p ++ q) (p' ++ q') :=
  hp.seq hq fun _ _ _ _ _ _ _ _ _ _ _ _ => ⟨trivial, trivial⟩

/-- One rule after another, where what the second one reads must be fit for the first. -/
theorem Rereads.followed (hp : Rereads all E pre fit p p') (hq : Rereads all E Anywhere fit' q q')
    (hlink : ∀ ⦃ts f rest rest'⦄, Token.Tail all ts → q ts = .ok (f, rest) → Exchanged E rest rest' →
      fit' rest rest' → fit ts (forestTokens f ++ rest')) :
    Rereads all E pre fit' (p ++ q) (p' ++ q') :=
  hp.seq hq fun _ _ _ _ _ _ htail _ h₁ h₂ hx hrest => ⟨hlink (htail.rest hp.keeps h₁) h₂ hx hrest, trivial⟩

/-- A rule that asks for the token behind it, before a rule that always reads one. -/
theorem Rereads.seq_reading (hp : Rereads all E pre SameHead p p') (hq : Rereads all E Anywhere fit q q')
    (hreads : ∀ ⦃ts f rest⦄, q ts = .ok (f, rest) → rest.length < ts.length) :
    Rereads all E pre fit (p ++ q) (p' ++ q') :=
  hp.followed hq fun _ _ _ rest' _ h _ _ => hq.keeps.sameHead h (hreads h) rest'

/-- The question has to have the same answer again, in both cases. -/
theorem Rereads.either (hp : Rereads all E (Asked ask) fit p p') (hq : Rereads all E pre fit q q')
    (hyes : ∀ ⦃ts f rest rest'⦄, Token.Tail all ts → ask ts = true → p ts = .ok (f, rest) →
      Exchanged E rest rest' → fit rest rest' → ask (forestTokens f ++ rest') = true)
    (hno : ∀ ⦃ts f rest rest'⦄, ask ts = false → q ts = .ok (f, rest) → Exchanged E rest rest' →
      fit rest rest' → ask (forestTokens f ++ rest') = false) :
    Rereads all E pre fit (either ask p q) (either ask p' q') where
  keeps := hp.keeps.either hq.keeps ask
  again ts f rest rest' htail hin h hx hrest := by
    unfold Rule.either at h ⊢
    cases hask : ask ts with
    | true =>
      rw [if_pos hask] at h
      rw [if_pos (hyes htail hask h hx hrest)]
      exact hp.again htail hask h hx hrest
    | false =>
      rw [hask, if_neg Bool.false_ne_true] at h
      rw [hno hask h hx hrest, if_neg Bool.false_ne_true]
      exact hq.again htail hin h hx hrest

/-- A choice by the next `n` tokens, which the first rule reads. -/
theorem Rereads.either_within (hp : Rereads all E (Asked ask) fit p p') (hq : Rereads all E pre fit q q')
    (n : Nat) (hwithin : ask.Within n) (hquiet : ask.Quiet E)
    (hreads : ∀ ⦃ts f rest⦄, ask ts = true → p ts = .ok (f, rest) → n ≤ (forestTokens f).length) :
    Rereads all E pre fit (Rule.either ask p q) (Rule.either ask p' q') := by
  refine hp.either hq ?_ ?_
  · intro ts f rest rest' _ hask h _ _
    rw [hwithin.same (hreads hask h) rest rest', hp.keeps h, hask]
  · intro ts f rest rest' hask h hx _
    exact hquiet.exchanged (hq.keeps.exchanged h hx) hask

/-- A yes that the next token gives stays a yes where the token is read. -/
theorem Rereads.asked (hp : Rereads all E pre fit p p') (hask : ask.OfHead) (hconsumes : Consumes p)
    (hyes : ask ts = true) (h : p ts = .ok (f, rest)) (rest' : List Token) :
    ask (forestTokens f ++ rest') = true :=
  (hask.same (hp.keeps.sameHead h (hconsumes (hask.ne_nil hyes) h) rest')).trans hyes

/-- A choice by the next token, which the first rule reads. -/
theorem Rereads.either_head (hp : Rereads all E (Asked ask) fit p p') (hq : Rereads all E pre fit q q')
    (hask : ask.OfHead) (hquiet : ask.Quiet E) (hconsumes : Consumes p) :
    Rereads all E pre fit (Rule.either ask p q) (Rule.either ask p' q') :=
  hp.either hq (fun _ _ _ rest' _ hyes h _ _ => hp.asked hask hconsumes hyes h rest')
    fun _ _ _ _ hno h hx _ => hquiet.exchanged (hq.keeps.exchanged h hx) hno

/-- By `Rereads.either_head`: a no stays a no. -/
theorem Rereads.optional (hp : Rereads all E (Asked ask) fit p p') (hask : ask.OfHead) (hquiet : ask.Quiet E)
    (hconsumes : Consumes p) : Rereads all E pre fit (optional ask p) (optional ask p') :=
  hp.either_head rereads_nothing hask hquiet hconsumes

/-- A choice by the next token, which the exchange leaves. -/
theorem Rereads.either_same (hp : Rereads all E (Asked ask) fit p p') (hq : Rereads all E pre fit q q')
    (hask : ask.OfHead) (hfit : ∀ ⦃ts ts'⦄, fit ts ts' → SameHead ts ts') :
    Rereads all E pre fit (Rule.either ask p q) (Rule.either ask p' q') := by
  have hsame : ∀ {r : Rule} {ts f rest rest'}, Keeps r → r ts = .ok (f, rest) → fit rest rest' →
      ask (forestTokens f ++ rest') = ask ts := by
    intro r ts f rest rest' hr h hrest
    rw [hask.same ((hfit hrest).prepend (forestTokens f)), hr h]
  refine hp.either hq ?_ ?_
  · intro ts f rest rest' _ hyes h _ hrest
    exact (hsame hp.keeps h hrest).trans hyes
  · intro ts f rest rest' hno h _ hrest
    exact (hsame hq.keeps h hrest).trans hno

/-- By `Rereads.either`, as the other branch fails. -/
theorem Rereads.require (hp : Rereads all E (Asked ask) fit p p') (hask : ask.OfHead) (hconsumes : Consumes p)
    (what : String) : Rereads all E pre fit (require ask what p) (require ask what p') :=
  hp.either (rereads_fail what _) (fun _ _ _ rest' _ hyes h _ _ => hp.asked hask hconsumes hyes h rest')
    fun _ _ _ _ _ h _ _ => by cases h

theorem rereads_expect (text : String) : Rereads all E pre fit (expect text) (expect text) :=
  (rereads_bump (ofHead_sees text)).require (ofHead_sees text) consumes_bump _

theorem rereads_expectWord (what : String) : Rereads all E pre fit (expectWord what) (expectWord what) :=
  (rereads_bump ofHead_seesWord).require ofHead_seesWord consumes_bump what

/-- The same trees are read, so as many tokens. -/
theorem Rereads.nonempty (hp : Rereads all E pre fit p p') (what : String) :
    Rereads all E pre fit (nonempty what p) (nonempty what p') where
  keeps := hp.keeps.nonempty what
  again ts f rest rest' htail hin h hx hrest := by
    obtain ⟨hok, hlt⟩ := nonempty_eq_ok h
    refine nonempty_ok (hp.again htail hin hok hx hrest) ?_ what
    have hkeeps := congrArg List.length (hp.keeps hok)
    rw [length_append] at hkeeps ⊢
    omega

/-- By `node_eq_ok`. -/
theorem Rereads.node (hp : Rereads all E pre fit p p') (kind : NodeKind) :
    Rereads all E pre fit (node kind p) (node kind p') where
  keeps := hp.keeps.node kind
  again ts f rest rest' htail hin h hx hrest := by
    obtain ⟨cs, hcs, rfl⟩ := node_eq_ok h
    rw [forestTokens_singleton, tokens_node]
    exact node_ok (hp.again htail hin hcs hx hrest)

/-- As in `Rereads.seq`, where the question finds the same kind. -/
theorem Rereads.closing {first : NodeKind} {ask ask' : List Token → NodeKind × Rule}
    (hp : Rereads all E pre fit p p') (hkeeps : ∀ ts, Keeps (ask ts).2)
    (hask : ∀ ⦃ts f rest rest'⦄, Token.Tail all ts → (ask ts).2 ts = .ok (f, rest) → Exchanged E rest rest' →
      fit' rest rest' → fit ts (forestTokens f ++ rest') ∧ (ask' (forestTokens f ++ rest')).1 = (ask ts).1 ∧
      (ask' (forestTokens f ++ rest')).2 (forestTokens f ++ rest') = .ok (f, rest')) :
    Rereads all E pre fit' (closing first p ask) (closing first p' ask') where
  keeps := hp.keeps.closing hkeeps
  again ts f rest rest' htail hin h hx hrest := by
    obtain ⟨f₁, mid, f₂, h₁, h₂, rfl⟩ := closing_eq_ok h
    obtain ⟨hmid, hkind, hsecond⟩ := hask (htail.rest hp.keeps h₁) h₂ hx hrest
    rw [forestTokens_singleton, tokens_node, forestTokens_append, append_assoc, ← hkind]
    exact closing_ok (hp.again htail hin h₁ ((hkeeps mid).exchanged h₂ hx) hmid) hsecond

/-! ### Repetition -/

theorem Consumes.shortens (hp : Consumes p) (hask : ask.OfHead) : Shortens ask p :=
  fun _ _ _ hyes h => hp (hask.ne_nil hyes) h

/-- A repetition. What the later rounds read, with the new rest behind it, must be fit for a round. -/
theorem Rereads.many (hp : Rereads all E (Asked ask) fit p p') (hprogress : Shortens ask p)
    (hgo : ∀ ⦃ts f rest rest'⦄, ask ts = true → p ts = .ok (f, rest) → Exchanged E rest rest' →
      fit rest rest' → ask (forestTokens f ++ rest') = true)
    (hstop : ∀ ⦃rest rest'⦄, ask rest = false → Exchanged E rest rest' → fit' rest rest' → ask rest' = false)
    (hlink : ∀ ⦃ts f rest rest'⦄, many ask p ts = .ok (f, rest) → Exchanged E rest rest' → fit' rest rest' →
      fit ts (forestTokens f ++ rest')) :
    Rereads all E pre fit' (many ask p) (many ask p') where
  keeps := hp.keeps.many ask
  again ts f rest rest' htail _ h hx hrest := by
    refine many_induction (motive := fun ts f rest => Token.Tail all ts →
      Exchanged E rest rest' → fit' rest rest' → Rule.many ask p' (forestTokens f ++ rest') =
        .ok (f, rest')) ?_ ?_ ?_ h htail hx hrest
    · intro ts hask _ hx hrest
      exact many_of_not (hstop hask hx hrest)
    · intro ts f rest hask hok hnot _ _ _
      exact absurd (hprogress hask hok) hnot
    · intro ts f mid f' rest hask hok hlt hmany ih htail hx hrest
      have hmid := (hp.keeps.many ask).exchanged hmany hx
      have hfit := hlink hmany hx hrest
      have hread : 0 < (forestTokens f).length := by
        rw [← hp.keeps hok, length_append] at hlt
        omega
      rw [forestTokens_append, append_assoc]
      refine many_round_ok (hgo hask hok hmid hfit) (hp.again htail hask hok hmid hfit) ?_
        (ih (htail.rest hp.keeps hok) hx hrest)
      simp only [length_append]
      omega

/-- A repetition that the next token asks for. -/
theorem Rereads.many_reading (hp : Rereads all E (Asked ask) fit p p') (hask : ask.OfHead)
    (hquiet : ask.Quiet E) (hconsumes : Consumes p)
    (hlink : ∀ ⦃ts f rest rest'⦄, Rule.many ask p ts = .ok (f, rest) → Exchanged E rest rest' →
      fit' rest rest' → fit ts (forestTokens f ++ rest')) :
    Rereads all E pre fit' (Rule.many ask p) (Rule.many ask p') :=
  hp.many (hconsumes.shortens hask)
    (fun _ _ _ rest' hyes h _ _ => hp.asked hask hconsumes hyes h rest')
      (fun _ _ hno hx _ => hquiet.exchanged hx hno)
    hlink

/-- By `Rereads.many_reading`, for a question about the next token. -/
theorem Rereads.many_head (hp : Rereads all E (Asked ask) Always p p') (hask : ask.OfHead)
    (hquiet : ask.Quiet E) (hconsumes : Consumes p) :
    Rereads all E pre fit (Rule.many ask p) (Rule.many ask p') :=
  hp.many_reading hask hquiet hconsumes fun _ _ _ _ _ _ _ => trivial

/-- A repetition that the next token asks for or not, which the exchange leaves. -/
theorem Rereads.many_same (hp : Rereads all E (Asked ask) fit p p')
    (hask : ∀ ⦃ts ts'⦄, SameHead ts ts' → ask ts' = ask ts)
    (hprogress : Shortens ask p)
    (hfit : Firm fit) :
    Rereads all E pre fit (Rule.many ask p) (Rule.many ask p') := by
  refine hp.many hprogress ?_ ?_ ?_
  · intro ts f rest rest' hyes h _ hrest
    rw [hask ((hfit.sameHead hrest).prepend (forestTokens f)), hp.keeps h, hyes]
  · intro rest rest' hno _ hrest
    rw [hask (hfit.sameHead hrest), hno]
  · intro ts f rest rest' h _ hrest
    rw [← hp.keeps.many ask h]
    exact hfit.prepend hrest

/-- A repetition that is asked for reads something. -/
theorem length_lt_of_many (hp : Keeps p)
    (hprogress : Shortens ask p)
    (hask : ask ts = true) (h : many ask p ts = .ok (f, rest)) :
    rest.length < ts.length := by
  refine many_induction (motive := fun ts _ rest => ask ts = true → rest.length < ts.length) ?_ ?_ ?_ h hask
  · intro ts hno hyes
    rw [hno] at hyes
    cases hyes
  · intro ts f rest hyes hok _ _
    exact hprogress hyes hok
  · intro ts f mid f' rest _ _ hlt hmany _ _
    rw [← hp.many ask hmany, length_append] at hlt
    omega

/-- A list with a node around it, which is read where the list is asked for. -/
theorem Rereads.optional_many (hkeeps : Keeps p)
    (hmany : Rereads all E Anywhere fit (Rule.many ask p) (Rule.many ask p')) (hprogress : Shortens ask p)
    (hstop : ∀ ⦃rest rest'⦄, ask rest = false → Exchanged E rest rest' → fit rest rest' → ask rest' = false)
    (kind : NodeKind) : Rereads all E pre fit (Rule.optional ask (Rule.node kind (Rule.many ask p)))
      (Rule.optional ask (Rule.node kind (Rule.many ask p'))) := by
  refine (hmany.anywhere.node kind).either rereads_nothing ?_ ?_
  · intro ts f rest rest' htail hask h hx hrest
    obtain ⟨cs, hcs, rfl⟩ := node_eq_ok h
    have hagain := hmany.again htail trivial hcs hx hrest
    rw [forestTokens_singleton, tokens_node]
    cases hask' : ask (forestTokens cs ++ rest') with
    | true => rfl
    | false =>
      -- the list would be empty, but its first entry was read
      rw [many_of_not hask'] at hagain
      have hlt := length_lt_of_many hkeeps hprogress hask hcs
      rw [← hmany.keeps hcs, ← (Prod.mk.inj (Except.ok.inj hagain)).1] at hlt
      exact absurd hlt (Nat.lt_irrefl _)
  · intro ts f rest rest' hask h hx hrest
    cases h
    exact hstop hask hx hrest

theorem Rereads.optional_list (hp : Rereads all E (Asked ask) Always p p') (hask : ask.OfHead)
    (hquiet : ask.Quiet E) (hconsumes : Consumes p) (kind : NodeKind) :
    Rereads all E pre fit (Rule.optional ask (Rule.node kind (Rule.many ask p)))
      (Rule.optional ask (Rule.node kind (Rule.many ask p'))) :=
  (hp.many_head hask hquiet hconsumes).optional_many hp.keeps (hconsumes.shortens hask)
    (fun _ _ hno hx _ => hquiet.exchanged hx hno) kind

/-- A repetition of `n` tokens at a time that the same tokens ask for. -/
theorem rereads_many_bumps {n : Nat} (hwithin : ask.Within (n + 1)) (hquiet : ask.Quiet E)
    (hneeds : ∀ ⦃ts⦄, ask ts = true → n + 1 ≤ ts.length) :
    Rereads all E pre fit (many ask (bumps (n + 1))) (many ask (bumps (n + 1))) := by
  have hround : Rereads all E (Asked ask) Always (bumps (n + 1)) (bumps (n + 1)) := rereads_bumps hneeds
  refine hround.many ?_ ?_ ?_ fun _ _ _ _ _ _ _ => trivial
  · intro ts f rest hyes h
    exact consumes_bumps n (length_pos_iff.mp (Nat.lt_of_lt_of_le (Nat.succ_pos n) (hneeds hyes))) h
  · intro ts f rest rest' hyes h _ _
    have hread : n + 1 ≤ (forestTokens f).length := by
      rw [(bumps_eq_ok h).1, forestTokens_map_token]
      exact Nat.le_of_eq (length_take_of_le (hneeds hyes)).symm
    rw [hwithin.same hread rest rest', keeps_bumps (n + 1) h, hyes]
  · intro rest rest' hno hx _
    exact hquiet.exchanged hx hno

/-- Entries up to a closing token, which the exchange leaves. -/
theorem Rereads.entries (hp : Rereads all E Before fit p p') (hconsumes : Consumes p)
    (hfit : Firm fit) (closer what : String) :
    Rereads all E pre fit (Rule.entries closer what p) (Rule.entries closer what p') := by
  have hend : Lookahead.OfHead fun ts => !seesEnd ts := ⟨fun _ => true, fun ts => by cases ts <;> rfl⟩
  have hentry : Rereads all E (Asked fun ts => !sees closer ts) fit
      (Rule.require (fun ts => !seesEnd ts) what p)
      (Rule.require (fun ts => !seesEnd ts) what p') :=
    (hp.given fun _ => hend.ne_nil).require hend hconsumes what
  refine hentry.many_same (fun _ _ hsame => congrArg Bool.not ((ofHead_sees closer).same hsame)) ?_ hfit
  intro ts f rest _ h
  unfold Rule.require Rule.either at h
  split at h
  · next hne => exact hconsumes (hend.ne_nil hne) h
  · cases h

/-- A rule that stops at a token, and the token. -/
theorem Rereads.closed (hp : Rereads all E pre fit p p') (closer : String)
    (hsees : ∀ ⦃ts f rest⦄, p ts = .ok (f, rest) → sees closer rest = true)
    (hclose : ∀ ⦃t ts ts'⦄, t.text = closer → fit' ts ts' → fit (t :: ts) (t :: ts')) :
    Rereads all E pre fit' (p ++ bump) (p' ++ bump) := by
  refine hp.seq rereads_bump_before ?_
  intro ts f mid g rest rest' _ _ h hbump _ hrest
  have hcloser := hsees h
  obtain ⟨t, mid, rfl⟩ := (ofHead_sees closer).exists_cons hcloser
  cases hbump
  exact ⟨hclose (eq_of_beq hcloser) hrest, cons_ne_nil t mid⟩

/-- **A list of entries**, with what opens it and the token that closes it. -/
theorem Rereads.between {opening : Rule} (hopen : Rereads all E pre Always opening opening)
    (hp : Rereads all E Before fit p p') (hconsumes : Consumes p) (hfit : Firm fit) (closer what : String)
    (hclose : ∀ ⦃t ts ts'⦄, t.text = closer → fit' ts ts' → fit (t :: ts) (t :: ts')) :
    Rereads all E pre fit' (opening ++ Rule.entries closer what p ++ bump)
      (opening ++ Rule.entries closer what p' ++ bump) := by
  refine (hopen.andThen (hp.entries hconsumes hfit closer what)).closed closer ?_ hclose
  intro ts f rest h
  obtain ⟨f₁, mid, f₂, -, h₂, -⟩ := seq_eq_ok h
  exact sees_of_entries hconsumes h₂

/-- A list whose entries ask for the token behind them only. -/
theorem Rereads.between_head {opening : Rule} (hopen : Rereads all E pre Always opening opening)
    (hp : Rereads all E Before SameHead p p') (hconsumes : Consumes p) (closer what : String) :
    Rereads all E pre fit (opening ++ Rule.entries closer what p ++ bump)
      (opening ++ Rule.entries closer what p' ++ bump) :=
  hopen.between hp hconsumes firm_sameHead closer what
    fun t _ _ _ _ => ⟨t, _, _, rfl, rfl⟩

/-! ### Nodes put around what was read, and chains -/

theorem wrappings_of_none {ask : Form}
    (h : ask ts = none) (f : List Tree) : wrappings ask f ts = .ok (f, ts) := by
  rw [wrappings, h]

/-- One node more around what was read. -/
theorem wrappings_round {ask : Form} {mid : List Token}
    {g : List Tree} (h : ask ts = some (kind, p)) (hp : p ts = .ok (g, mid))
    (hlt : mid.length < ts.length) (f : List Tree) :
    wrappings ask f ts = wrappings ask [.node kind (f ++ g)] mid := by
  conv => lhs; rw [wrappings]
  simp only [h, hp, andThen_ok, if_pos hlt]
  rfl

/-- A form of a wrapping that is read again. It reads a token, and where it is ahead every exchange is fit. -/
structure RereadForm (all : List Token) (E fit : Exchange)
    (ask' : Form) (ts : List Token) (kind : NodeKind) (q : Rule) : Prop where
  keeps : Keeps q
  progress : ∀ {f rest}, q ts = .ok (f, rest) → rest.length < ts.length
  fits : ∀ {ts'}, Exchanged E ts ts' → fit ts ts'
  again : ∀ {f rest rest'}, Token.Tail all ts → q ts = .ok (f, rest) →
    Exchanged E rest rest' → fit rest rest' →
    ∃ q', ask' (forestTokens f ++ rest') = some (kind, q') ∧ q' (forestTokens f ++ rest') = .ok (f, rest')

/-- What a wrapping reads again, form by form. -/
structure RereadForms (all : List Token) (E fit : Exchange)
    (ask ask' : Form) : Prop where
  form : ∀ {ts kind q}, ask ts = some (kind, q) → RereadForm all E fit ask' ts kind q
  stop : ∀ {rest rest'}, ask rest = none → Exchanged E rest rest' → ask' rest' = none

theorem rereadForms_none : RereadForms all E fit (fun _ => none) fun _ => none where
  form h := by cases h
  stop _ _ := rfl

section

variable {next next' : Form} (hnext : RereadForms all E fit next next')
  (hquiet : ask.Quiet E) (hfits : ∀ ⦃ts ts'⦄, ask ts = true → Exchanged E ts ts' → fit ts ts')
include hnext hquiet hfits

/-- A form that the next tokens ask for, in front of others. They also choose it, and it reads them. -/
theorem RereadForms.ahead {choose choose' : List Token → NodeKind × Rule} {n : Nat}
    (hwithin : ask.Within (n + 1))
    (hchoose : ∀ {us}, n + 1 ≤ us.length → ∀ ts ts', choose' (us ++ ts') = choose' (us ++ ts))
    (hkind : ∀ ts, (choose' ts).1 = (choose ts).1)
    (hform : ∀ ⦃ts⦄, ask ts = true → Rereads all E (· = ts) fit (choose ts).2 (choose' ts).2)
    (hreads : ∀ ⦃ts f rest⦄, ask ts = true → (choose ts).2 ts = .ok (f, rest) →
      n + 1 ≤ (forestTokens f).length) :
    RereadForms all E fit (fun ts => if ask ts then some (choose ts) else next ts)
      (fun ts => if ask ts then some (choose' ts) else next' ts) where
  form {ts kind q} h := by
    cases hask : ask ts with
    | true =>
      rw [if_pos hask] at h
      obtain ⟨rfl, rfl⟩ := Prod.ext_iff.mp (Option.some.inj h)
      have hkeeps := (hform hask).keeps
      refine ⟨hkeeps, fun {f rest} hq => ?_, hfits hask, fun {f rest rest'} htail hq hx hrest => ?_⟩
      · rw [← hkeeps hq, length_append]
        exact Nat.lt_add_of_pos_left (Nat.lt_of_lt_of_le n.succ_pos (hreads hask hq))
      · have hread := hreads hask hq
        rw [hwithin.same hread rest rest', hchoose hread rest rest', hkeeps hq, if_pos hask]
        exact ⟨(choose' ts).2, congrArg some (Prod.ext (hkind ts) rfl),
          (hform hask).again htail rfl hq hx hrest⟩
    | false =>
      rw [hask, if_neg Bool.false_ne_true] at h
      refine { hnext.form h with again := fun htail hq hx hrest => ?_ }
      rw [hquiet.exchanged ((hnext.form h).keeps.exchanged hq hx) hask, if_neg Bool.false_ne_true]
      exact (hnext.form h).again htail hq hx hrest
  stop {rest rest'} h hx := by
    cases hask : ask rest with
    | true =>
      rw [if_pos hask] at h
      cases h
    | false =>
      rw [hask, if_neg Bool.false_ne_true] at h
      rw [hquiet.exchanged hx hask, if_neg Bool.false_ne_true]
      exact hnext.stop h hx

/-- A form that the next token asks for. -/
theorem RereadForms.ahead_head (hask : ask.OfHead) (hform : Rereads all E (Asked ask) fit p p')
    (hreads : Shortens ask p) :
    RereadForms all E fit (fun ts => if ask ts then some (kind, p) else next ts)
      (fun ts => if ask ts then some (kind, p') else next' ts) := by
  refine hnext.ahead hquiet hfits hask.within (fun _ _ _ => rfl) (fun _ => rfl) ?_ ?_
  · intro ts hyes
    exact hform.given fun _ hts => hts ▸ hyes
  · intro ts f rest hyes hok
    have hlt := hreads hyes hok
    rw [← hform.keeps hok, length_append] at hlt
    omega

end

/-- What is put around trees: `used` are the tokens that it takes, and what is left in front of them is
fit. -/
theorem RereadForms.wrappings {ask ask' : Form} (hask : RereadForms all E fit ask ask') {f f' : List Tree}
    {ts rest rest' : List Token} (htail : Token.Tail all ts) (h : wrappings ask f ts = .ok (f', rest))
    (hx : Exchanged E rest rest') (hrest : fit rest rest') :
    ∃ used, ts = used ++ rest ∧ forestTokens f' = forestTokens f ++ used ∧ fit ts (used ++ rest') ∧
      wrappings ask' f (used ++ rest') = .ok (f', rest') := by
  refine wrappings_induction (motive := fun f ts f' rest => Token.Tail all ts →
    Exchanged E rest rest' → fit rest rest' → ∃ used, ts = used ++ rest ∧
      forestTokens f' = forestTokens f ++ used ∧ fit ts (used ++ rest') ∧
      Rule.wrappings ask' f (used ++ rest') = .ok (f', rest')) ?_ ?_ ?_ h htail hx hrest
  · intro f ts hnone _ hx hrest
    exact ⟨[], rfl, (append_nil _).symm, hrest, wrappings_of_none (hask.stop hnone hx) f⟩
  · intro f ts kind p g rest hsome hok hnot _ _ _
    exact absurd ((hask.form hsome).progress hok) hnot
  · intro f ts kind p g mid f' rest hsome hok hlt _ ih htail hx hrest
    have hkeeps := (hask.form hsome).keeps
    obtain ⟨used, hused, hf', hfit, hagain⟩ := ih (htail.rest hkeeps hok) hx hrest
    have hmid : Exchanged E mid (used ++ rest') := by
      rw [hused]
      exact hx.prepend used
    obtain ⟨q', hform, hq'⟩ := (hask.form hsome).again htail hok hmid hfit
    refine ⟨forestTokens g ++ used, ?_, ?_, ?_, ?_⟩
    · rw [append_assoc, ← hused, hkeeps hok]
    · rw [hf', forestTokens_singleton, tokens_node, forestTokens_append, append_assoc]
    · rw [append_assoc]
      exact (hask.form hsome).fits (hkeeps.exchanged hok hmid)
    · have hread : 0 < (forestTokens g).length := by
        rw [← hkeeps hok, length_append] at hlt
        omega
      rw [append_assoc, wrappings_round hform hq' (by simp only [length_append]; omega), hagain]

/-- By `RereadForms.wrappings`, behind the first rule. -/
theorem Rereads.wrapping {ask ask' : Form} (hp : Rereads all E pre fit p p')
    (hask : RereadForms all E fit ask ask') : Rereads all E pre fit (wrapping p ask) (wrapping p' ask') where
  keeps := hp.keeps.wrapping fun h => (hask.form h).keeps
  again ts f rest rest' htail hin h hx hrest := by
    obtain ⟨f₁, mid, h₁, h₂⟩ := wrapping_eq_ok h
    obtain ⟨used, rfl, hf, hfit, hagain⟩ := hask.wrappings (htail.rest hp.keeps h₁) h₂ hx hrest
    have hfirst := hp.again htail hin h₁ (hx.prepend used) hfit
    unfold Rule.wrapping
    rw [hf, append_assoc, hfirst]
    exact hagain

theorem chain_stop (hp : p ts = .ok (f, rest)) (hlink : sees link rest = false) :
    chain kind p link ts = .ok ([.node kind f], rest) := by
  rw [chain, hp, andThen_ok, if_neg fun h => Bool.false_ne_true (hlink ▸ h.1)]
  rfl

/-- A link and what the chain reads behind it. -/
theorem chain_round {tail : List Token} {l : Token}
    {f' : List Tree} (hp : p ts = .ok (f, l :: tail)) (hlink : sees link (l :: tail) = true)
    (hlt : tail.length < ts.length) (hchain : chain kind p link tail = .ok (f', rest)) :
    chain kind p link ts = .ok (.node kind (f ++ [.token l]) :: f', rest) := by
  rw [chain, hp]
  simp only [andThen_ok, hlink, drop_succ_cons, drop_zero, hlt, and_self, if_true, hchain]
  rfl

/-- A chain ends only where the link is not ahead, since a round reads no less than nothing. -/
theorem not_sees_of_chain_stop (hp : Keeps p)
    (h : p ts = .ok (f, rest)) (hnot : ¬ (sees link rest = true ∧ (rest.drop 1).length < ts.length)) :
    sees link rest = false := by
  cases hsees : sees link rest with
  | false => rfl
  | true =>
    refine absurd ⟨hsees, ?_⟩ hnot
    have hpos := length_pos_iff.mpr ((ofHead_sees link).ne_nil hsees)
    have hle := congrArg List.length (hp h)
    rw [length_append] at hle
    rw [length_drop]
    omega

/-- A chain whose link is not found in what is exchanged. -/
theorem Rereads.chain {link : String} (hp : Rereads all E Anywhere Always p p') (hlink : (sees link).Quiet E)
    (kind : NodeKind) : Rereads all E pre fit (chain kind p link) (chain kind p' link) where
  keeps := hp.keeps.chain kind link
  again ts f rest rest' htail _ h hx _ := by
    refine chain_induction (motive := fun ts f rest => Token.Tail all ts → Exchanged E rest rest' →
      Rule.chain kind p' link (forestTokens f ++ rest') = .ok (f, rest')) ?_ ?_ h htail hx
    · intro ts f rest hok hnot htail hx
      have hsees : sees link rest = false := not_sees_of_chain_stop hp.keeps hok hnot
      rw [forestTokens_singleton, tokens_node]
      exact chain_stop (hp.again htail trivial hok hx trivial) (hlink.exchanged hx hsees)
    · intro ts f mid f' rest hok hsees hlt hchain ih htail hx
      obtain ⟨l, tail, rfl⟩ := (ofHead_sees link).exists_cons hsees
      rw [drop_succ_cons, drop_zero] at hlt hchain ih
      have htail' := (htail.rest hp.keeps hok).rest keeps_bump
          (show bump (l :: tail) = .ok ([.token l], tail) from rfl)
      have hmid : Exchanged E (l :: tail) (l :: (forestTokens f' ++ rest')) :=
        ((hp.keeps.chain kind link).exchanged hchain hx).prepend [l]
      have hfirst := hp.again htail trivial hok hmid trivial
      have hinput : forestTokens (.node kind (f ++ [.token l]) :: f') ++ rest' =
          forestTokens f ++ l :: (forestTokens f' ++ rest') := by
        rw [forestTokens_cons, tokens_node, forestTokens_append,
          forestTokens_singleton, tokens_token, append_assoc, append_assoc]
        rfl
      show Rule.chain kind p' link (forestTokens (.node kind (f ++ [.token l]) :: f') ++ rest') = _
      rw [hinput]
      refine chain_round hfirst hsees ?_ (ih htail' hx)
      simp only [length_append, length_cons]
      omega

end

end Rule

/-! ## Runs of tokens -/

variable {ts : List Token} {comma begun : Bool}

/-- By induction on the tokens: the group ends at its own bracket. -/
theorem takeGroup_cut {depth : Nat} {run rest : List Token} (h : takeGroup depth ts = some (run, rest))
    (cut : List Token) : takeGroup depth (run ++ cut) = some (run, cut) := by
  induction ts generalizing depth run with
  | nil => cases h
  | cons t ts ih =>
    rw [takeGroup] at h
    by_cases hclose : (isCloser t && depthAfter depth t == 0) = true
    · rw [if_pos hclose] at h
      cases h
      rw [singleton_append, takeGroup, if_pos hclose]
    · rw [if_neg hclose] at h
      obtain ⟨q, hq, heq⟩ := Option.map_eq_some_iff.mp h
      cases heq
      rw [cons_append, takeGroup, if_neg hclose, ih hq]
      rfl

theorem runEnds_sameHead {t : Token} {ts' : List Token} (h : SameHead ts ts') :
    runEnds comma begun (t :: ts') = runEnds comma begun (t :: ts) := by
  obtain ⟨u, us, us', rfl, rfl⟩ := h
  rfl

/-- Only an opening brace asks for the token behind it. -/
theorem runEnds_of_ne_brace {t : Token} (h : t.text ≠ "\x7b") (ts ts' : List Token) :
    runEnds comma begun (t :: ts') = runEnds comma begun (t :: ts) := by
  have hbrace : (t.text == "\x7b") = false := beq_eq_false_iff_ne.mpr h
  have hobservers (us : List Token) : seesObservers (t :: us) = false := by
    simp only [seesObservers, sees, List.head?_cons, Option.any_some, hbrace, Bool.false_and]
  rw [runEnds, runEnds, hobservers, hobservers]
  rfl

/-- The lists begin with the same token, which is no opening brace. -/
def Rule.OffBraceHead (ts ts' : List Token) : Prop :=
  ∃ t us us', ts = t :: us ∧ ts' = t :: us' ∧ t.text ≠ "\x7b"

theorem Rule.OffBraceHead.sameHead {ts' : List Token} (h : OffBraceHead ts ts') : SameHead ts ts' := by
  obtain ⟨t, us, us', h, h', -⟩ := h
  exact ⟨t, us, us', h, h'⟩

/-- A run that has ended before a token ends there whatever follows, if the token is no brace. -/
theorem takeRun_offBraceHead {depth : Nat} {run rest rest' : List Token}
    (h : takeRun comma begun depth ts = (run, rest)) (hrest : Rule.OffBraceHead rest rest') :
    takeRun comma begun depth (run ++ rest') = (run, rest') := by
  induction ts generalizing begun depth run with
  | nil =>
    cases h
    exact absurd rfl hrest.sameHead.ne_nil
  | cons t ts ih =>
    rw [takeRun] at h
    by_cases hend : (depth == 0 && runEnds comma begun (t :: ts)) = true
    · rw [if_pos hend] at h
      cases h
      obtain ⟨u, us, us', heq, rfl, hbrace⟩ := hrest
      cases heq
      rw [nil_append, takeRun, runEnds_of_ne_brace hbrace ts us', if_pos hend]
    · rw [if_neg hend] at h
      obtain ⟨rfl, rfl⟩ := Prod.mk.inj h
      have hsame := hrest.sameHead.prepend (takeRun comma true (depthAfter depth t) ts).1
      rw [takeRun_append] at hsame
      rw [cons_append, takeRun, runEnds_sameHead hsame, if_neg hend, ih rfl]

namespace Rule

variable {all : List Token} {E fit : Exchange} {pre : List Token → Prop}

/-- By `takeGroup_cut`, whatever the rest is. -/
theorem rereads_group : Rereads all E pre fit group group where
  keeps := lawful_group.keeps
  again ts f rest rest' _ _ h _ _ := by
    obtain ⟨run, hrun, rfl⟩ := group_eq_ok h
    rw [forestTokens_map_token]
    exact group_ok (takeGroup_cut hrun rest')

/-- An expression in front of a token that is no brace. -/
theorem rereads_exprRun : Rereads all E pre OffBraceHead exprRun exprRun where
  keeps := lawful_exprRun.keeps
  again ts f rest rest' _ _ h _ hrest := by
    obtain ⟨rfl, rfl⟩ := split_eq_ok h
    rw [forestTokens_map_token]
    exact run_ok (congrArg Except.ok (takeRun_offBraceHead rfl hrest))

end Rule

end SwiftOutline
