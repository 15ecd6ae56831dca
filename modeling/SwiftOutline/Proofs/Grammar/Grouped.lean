import SwiftOutline.Proofs.Grammar.Conditional
import SwiftOutline.Proofs.Grammar.Parentheses
import SwiftOutline.Proofs.Grammar.ReadBack

/-!
# `Grouped` — a type in parentheses of its own

Any text that is a type can be put in parentheses, with a line feed in front of the closing one for a
comment that the text may end with. The type inside is read as it was: the tokens have moved on by a
byte, and the parenthesis behind them ends what the end of the text ended. No label is found in front of
it, since a type goes on with no colon.
-/

namespace SwiftOutline

open Rule Token List

namespace Rule

open Lookahead

/-! ## No labels in front of a type -/

/-- A word or a colon is ahead, with which a type that has ended does not go on. -/
def Apart (ts : List Token) : Prop := (sees ":" ts || seesWord ts) = true

section

variable {inner : Rule} {w : Token} {ts : List Token}

theorem Apart.not_sees (h : Apart ts) (hlex : ∀ t ∈ ts, t.Lexical) {text : String} (hcolon : text ≠ ":")
    (hsign : (lexicalKind? text).any (fun k => k == .identifier || k == .keyword) = false) :
    sees text ts = false := by
  cases ts with
  | nil => rfl
  | cons t ts =>
    refine beq_eq_false_iff_ne.mpr ?_
    rcases Bool.or_eq_true_iff.mp h with hsees | hword
    · rw [show t.text = ":" from eq_of_beq hsees]
      exact hcolon.symm
    · exact text_ne_of_isWord (hlex t mem_cons_self) hword hsign

theorem Apart.compositionForm (h : Apart ts) (hlex : ∀ t ∈ ts, t.Lexical) :
    compositionForm inner ts = none := by
  rw [Rule.compositionForm, h.not_sees hlex (by decide) (by decide)]
  rfl

/-- A name that a word or a colon follows is a type by itself. -/
theorem Apart.postfixType (h : Apart ts) (hlex : ∀ t ∈ w :: ts, t.Lexical) (hw : w.isWord = true) :
    postfixType inner (w :: ts) = .ok ([.node .identifierType [.token w]], ts) := by
  have hother {text : String} (hsign :
      (lexicalKind? text).any (fun k => k == .identifier || k == .keyword) = false) :
      sees text (w :: ts) = false :=
    beq_eq_false_iff_ne.mpr (text_ne_of_isWord (hlex w mem_cons_self) hw hsign)
  have hlex' : ∀ t ∈ ts, t.Lexical := fun t ht => hlex t (mem_cons_of_mem w ht)
  have hprimary : primaryType inner (w :: ts) = .ok ([.node .identifierType [.token w]], ts) := by
    rw [primaryType, either_of_no (hother (by decide)), either_of_no (hother (by decide)), require,
      either_of_yes (show seesWord (w :: ts) = true from hw)]
    exact node_ok (seq_ok (bump_cons w ts) (optional_of_no (h.not_sees hlex' (by decide) (by decide))))
  have hform : postfixForm inner ts = none := by
    rw [postfixForm, h.not_sees hlex' (by decide) (by decide), h.not_sees hlex' (by decide) (by decide),
      h.not_sees hlex' (by decide) (by decide)]
    rfl
  exact wrapping_ok hprimary (wrappings_of_none hform _)

theorem sees_of_textAt (h : textAt 0 ts = ":") : sees ":" ts = true := by
  cases ts with
  | nil => exact absurd (show "" = ":" from h) (by decide)
  | cons t ts => exact beq_iff_eq.mpr h

/-- Neither a specifier nor `some` or `any` is seen in front of a colon. -/
theorem not_asked_of_colon (w : Token) (hlex : ∀ t ∈ ts, t.Lexical) (hcolon : sees ":" ts = true) :
    seesTypeSpecifier (w :: ts) = false ∧ seesSomeOrAny (w :: ts) = false := by
  cases ts with
  | nil => cases hcolon
  | cons c ts =>
    have htext : c.text = ":" := eq_of_beq hcolon
    have hword : isWordAt 1 (w :: c :: ts) = false := by
      show c.isWord = false
      rw [Bool.eq_false_iff]
      exact fun hword => text_ne_of_isWord (hlex c mem_cons_self) hword (by decide) htext
    have hnext : textAt 1 (w :: c :: ts) = ":" := htext
    constructor
    · rw [seesTypeSpecifier, hword, hnext]
      exact Bool.and_false _
    · rw [seesSomeOrAny, hword, hnext]
      exact Bool.and_false _

/-- **A type that begins with a label ends before the colon.** -/
theorem exists_simpleType_of_label (hlex : ∀ t ∈ w :: ts, t.Lexical) (hw : w.isWord = true)
    (hlabel : sees ":" ts = true ∨ (seesWord ts && textAt 1 ts == ":") = true) :
    ∃ f rest, simpleType inner (w :: ts) = .ok (f, rest) ∧ Apart rest := by
  have hlex' : ∀ t ∈ ts, t.Lexical := fun t ht => hlex t (mem_cons_of_mem w ht)
  have hat {v : Token} {us : List Token} (hv : v.isWord = true) : seesKind .atSign (v :: us) = false := by
    refine beq_eq_false_iff_ne.mpr fun hkind => ?_
    rw [isWord, hkind] at hv
    cases hv
  have htilde : sees "~" (w :: ts) = false :=
    beq_eq_false_iff_ne.mpr (text_ne_of_isWord (hlex w mem_cons_self) hw (by decide))
  have hplain (hspecifier : seesTypeSpecifier (w :: ts) = false) (hsome : seesSomeOrAny (w :: ts) = false) :
      simpleType inner (w :: ts) = postfixType inner (w :: ts) := by
    rw [simpleType, either_of_no (by rw [hat hw, hspecifier]; rfl), either_of_no hsome, either_of_no htilde]
  rcases hlabel with hcolon | hlabel
  · obtain ⟨hspecifier, hsome⟩ := not_asked_of_colon w hlex' hcolon
    have hapart : Apart ts := by rw [Apart, hcolon, Bool.true_or]
    exact ⟨_, ts, (hplain hspecifier hsome).trans (hapart.postfixType hlex hw), hapart⟩
  -- of two words in front of a colon, the first may be one that goes in front of a type
  rw [Bool.and_eq_true, beq_iff_eq] at hlabel
  obtain ⟨v, us, rfl⟩ := ofHead_seesWord.exists_cons hlabel.1
  have hcolon : sees ":" us = true := sees_of_textAt hlabel.2
  have hapart : Apart us := by rw [Apart, hcolon, Bool.true_or]
  have hname : postfixType inner (v :: us) = _ := hapart.postfixType hlex' hlabel.1
  by_cases hspecifier : seesTypeSpecifier (w :: v :: us) = true
  · have hlast := (not_asked_of_colon v (fun t ht => hlex' t (mem_cons_of_mem v ht)) hcolon).1
    have hmany := many_round_ok hspecifier (bump_cons w (v :: us)) (Nat.lt_succ_self _) (many_of_not hlast)
    rw [simpleType, either_of_yes (by rw [hspecifier, Bool.or_true])]
    exact ⟨_, us, node_ok (seq_ok (seq_ok hmany (optional_of_no (hat hlabel.1))) hname), hapart⟩
  rw [Bool.not_eq_true] at hspecifier
  by_cases hsome : seesSomeOrAny (w :: v :: us) = true
  · rw [simpleType, either_of_no (by rw [hat hw, hspecifier]; rfl), either_of_yes hsome]
    exact ⟨_, us, node_ok (seq_ok (bump_cons w (v :: us)) hname), hapart⟩
  · have hword : Apart (v :: us) := by rw [Apart, hlabel.1, Bool.or_true]
    exact ⟨_, v :: us, (hplain hspecifier (Bool.eq_false_iff.mpr hsome)).trans (hword.postfixType hlex hw),
      hword⟩

/-- **No label stands in front of a type** that does not end before a colon or a word. -/
theorem elementLabels_of_type {n : Nat} {rest : List Token} {f : List Tree} (hlex : ∀ t ∈ ts, t.Lexical)
    (h : type n ts = .ok (f, rest)) (hrest : ¬ Apart rest) : elementLabels ts = .ok ([], ts) := by
  have hno (hw : seesWord ts = true) :
      ¬ (textAt 1 ts = ":" ∨ (isWordAt 1 ts && textAt 2 ts == ":") = true) := by
    intro hlabel
    obtain ⟨w, us, rfl⟩ := ofHead_seesWord.exists_cons hw
    have hlabel' : sees ":" us = true ∨ (seesWord us && textAt 1 us == ":") = true :=
      hlabel.imp_left sees_of_textAt
    cases n with
    | zero => cases h
    | succ n =>
      obtain ⟨f', mid, hsimple, hapart⟩ : ∃ f mid, simpleType (type n) (w :: us) = .ok (f, mid) ∧ Apart mid :=
        exists_simpleType_of_label hlex hw hlabel'
      have hlex' : ∀ t ∈ mid, t.Lexical := fun t ht =>
        hlex t ((lawful_simpleType (lawful_type n)).keeps.mem_of_rest hsimple ht)
      have hread : type (n + 1) (w :: us) = .ok (f', mid) :=
        wrapping_ok hsimple (wrappings_of_none (hapart.compositionForm hlex') _)
      rw [hread] at h
      cases h
      exact hrest hapart
  cases hw : seesWord ts with
  | false => rw [elementLabels, either_of_no (by rw [hw]; rfl), optional_of_no (by rw [hw]; rfl)]
  | true =>
    obtain ⟨hone, htwo⟩ := not_or.mp (hno hw)
    rw [elementLabels, either_of_no (by rw [beq_eq_false_iff_ne.mpr hone, Bool.and_false]),
      optional_of_no (by rw [Bool.and_assoc, Bool.eq_false_iff.mpr htwo, Bool.and_false])]

end

/-! ## A type in front of a parenthesis -/

theorem ne_nil_of_type {n : Nat} {ts rest : List Token} {f : List Tree} (h : type n ts = .ok (f, rest)) :
    ts ≠ [] := by
  rintro rfl
  cases n with
  | zero => cases h
  | succ n => cases h

section

variable {n : Nat} {ts more : List Token} {u : Tree}

theorem stops_of_closing {closing : Token} (hclosing : closing.text = ")" ∧ closing.kind = .punct)
    (more : List Token) : Stops (closing :: more) :=
  ⟨closing, more, rfl, by rw [hclosing.1]; decide, by rw [hclosing.2]; decide⟩

/-- A type in front of tokens with which no type goes on stands in a list with neither a label in front
of it nor the end of the list. -/
theorem startsInside_before (hlex : ∀ t ∈ ts, t.Lexical) (h : type n ts = .ok ([u], []))
    (hmore : Stops more) : StartsInside (ts ++ more) := by
  have hlabels : elementLabels ts = .ok ([], ts) := elementLabels_of_type hlex h nofun
  have hagain := hmore.elementLabels hlex hlabels
  obtain ⟨t, us, rfl⟩ := exists_cons_of_ne_nil (ne_nil_of_type h)
  exact ⟨rfl, beq_eq_false_iff_ne.mpr (text_ne_of_type (hlex t mem_cons_self) h), hagain⟩

end

/-- **A type is read again in parentheses.** -/
theorem type_group {n : Nat} {ts : List Token} {u : Tree} (hlex : ∀ t ∈ ts, t.Lexical)
    (h : type n ts = .ok ([u], [])) (pos : Nat) {closing : Token}
    (hclosing : closing.text = ")" ∧ closing.kind = .punct) :
    type (n + 1) (parenToken true pos :: (ts ++ [closing])) =
      .ok ([groupTree (parenToken true pos) u closing], []) := by
  have hmore := stops_of_closing hclosing []
  have hinside := startsInside_before hlex h hmore
  have hopening : (parenToken true pos).Lexical := ⟨'(', [], show "(".toList = ['('] from rfl, rfl⟩
  refine typeBody_of_parenType hopening rfl ?_
  refine parenType_of_inside pos (consumes_type n) hinside hclosing (hmore.type hlex h) ?_
  rw [seesFunctionArrow, afterEffects?]
  rfl

end Rule

/-! ## Texts -/

/-- The text in pairs of parentheses. A line feed ends a comment that the text may end with. -/
def grouped (text : String) : Nat → String
  | 0 => text
  | n + 1 => "(" ++ grouped text n ++ "\n)"

/-- The parenthesis at the end of such a text. -/
def closingToken (lead : String) (start : Nat) : Token := ⟨.punct, lead, ")", start, true⟩

/-- The tokens of a text in parentheses are all of it. -/
theorem tokenize_group {text : String} {ts : List Token} (h : tokenize text = .ok ts) :
    ∃ lead start, tokenize ("(" ++ text ++ "\n)") =
        .ok (parenToken true 0 :: (ts.map (shiftUp 1) ++ [closingToken lead start])) ∧
      joined (parenToken true 0 :: (ts.map (shiftUp 1) ++ [closingToken lead start])) =
        "(" ++ text ++ "\n)" := by
  obtain ⟨front, hlayout, hjoined⟩ := tokensFrom_joined (tokensFrom_shiftUp h 1)
  have htext : ("(" ++ text ++ "\n)").toList = '(' :: (text.toList ++ '\n' :: [')']) := by
    rw [String.toList_append, String.toList_append]
    rfl
  refine ⟨String.ofList front ++ "", 0 + 1 + Text.byteSize text.toList + 1, ?_, ?_⟩
  · have hclose := tokensFrom_paren false (tokensFrom_nil (0 + 1 + Text.byteSize text.toList + 1 + 1))
    have hafter := (hjoined [')']).trans (congrArg _ hclose)
    rw [tokenize, htext]
    exact tokensFrom_paren true hafter
  · have hclose (start : Nat) : layout [closingToken (String.ofList front ++ "") start] = front ++ [')'] := by
      simp [layout, closingToken]
    refine String.toList_injective ?_
    rw [toList_joined, layout_append, hclose, ← append_assoc (layout _) front, hlayout, htext]
    simp [parenToken]

theorem tokens_groupTree (opening : Token) (u : Tree) (closing : Token) :
    (groupTree opening u closing).tokens = opening :: (u.tokens ++ [closing]) := by
  simp [groupTree]

/-- **The text is the type `u`** and nothing else, and is read without going deeper than so many levels. -/
structure SoleType (levels : Nat) (text : String) (u : Tree) : Prop where
  tokens : tokenize text = .ok u.tokens
  read : type levels u.tokens = .ok ([u], [])

namespace SoleType

variable {levels : Nat} {text : String} {u : Tree}

theorem lexical (h : SoleType levels text u) : ∀ t ∈ u.tokens, t.Lexical := lexical_of_tokensFrom h.tokens

/-- With more levels the type is the same. -/
theorem mono {more : Nat} (h : SoleType levels text u) (hmore : levels ≤ more) : SoleType more text u := by
  exact ⟨h.tokens, (alike_type hmore (u.tokens.length + 1)).ok (Nat.lt_succ_self _) h.read⟩

theorem parseType (h : SoleType levels text u) (hlevels : levels ≤ nestingLimit) :
    parseType text = .ok (.node .typeRoot [u]) := by
  rw [SwiftOutline.parseType, parseWith, h.tokens]
  simp only [soleType_of_type (h.mono hlevels).read]

/-- **A text that is one type, in parentheses, is one type.** -/
theorem group (h : SoleType levels text u) : ∃ closing,
    SoleType (levels + 1) ("(" ++ text ++ "\n)")
      (groupTree (parenToken true 0) (u.relabel (shiftUp 1)) closing) ∧
    (groupTree (parenToken true 0) (u.relabel (shiftUp 1)) closing).text = "(" ++ text ++ "\n)" := by
  obtain ⟨lead, start, htokens, hjoined⟩ := tokenize_group h.tokens
  have hmoved := (lawful_type levels).natural (unseen_shiftUp 1) u.tokens
  rw [h.read, relabelOutcome_ok, map_singleton, map_nil] at hmoved
  have hlex : ∀ t ∈ u.tokens.map (shiftUp 1), t.Lexical := by
    intro t ht
    obtain ⟨v, hv, rfl⟩ := mem_map.mp ht
    exact (h.lexical v hv).of_eq rfl rfl
  have hclosing : (closingToken lead start).text = ")" ∧ (closingToken lead start).kind = .punct := ⟨rfl, rfl⟩
  refine ⟨closingToken lead start, ⟨?_, ?_⟩, ?_⟩
  · rw [tokens_groupTree, Tree.tokens_relabel, htokens]
  · rw [tokens_groupTree, Tree.tokens_relabel]
    exact type_group hlex hmoved 0 hclosing
  · rw [Tree.text, tokens_groupTree, Tree.tokens_relabel, hjoined]

end SoleType

end SwiftOutline
