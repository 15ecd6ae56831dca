import Mathlib.Logic.Basic
import SwiftOutline.Proofs.Token.Swap

/-!
# `Slice` — tokens of a part of a text

Cutting a text right behind a token changes none of the tokens before the cut. Cutting it right before a
token changes only what that token knows of the gap in front of it.
-/

namespace SwiftOutline

open Token Text List

/-! ## Tokens of a part -/

namespace Token

/-- The text of the token alone is that token. -/
def Lexical (t : Token) : Prop :=
  ∃ c cs, t.text.toList = c :: cs ∧ scanLexeme 0 c cs = .ok ⟨t.kind, c :: cs, []⟩

/-- The token as the first one of a text that begins with it. -/
def leading (t : Token) : Token := { t with lead := "", newlineBefore := false }

/-- The token in a text that begins at byte `base` of the text it is from. -/
def rebase (base : Nat) (t : Token) : Token := { t with start := t.start - base }

/-- The text of a run of tokens with all their gaps. -/
def layout (ts : List Token) : List Char := ts.flatMap fun t => t.lead.toList ++ t.text.toList

theorem layout_cons (t : Token) (ts : List Token) :
    layout (t :: ts) = t.lead.toList ++ (t.text.toList ++ layout ts) := by
  rw [layout, flatMap_cons, append_assoc]
  rfl

theorem toList_joined (t : Token) (ts : List Token) :
    (joined (t :: ts)).toList = t.text.toList ++ layout ts := by
  rw [joined, String.toList_append]
  congr 1
  induction ts with
  | nil => rfl
  | cons u us ih =>
    rw [List.map_cons, String.join_cons, String.toList_append, String.toList_append, ih, layout_cons,
      append_assoc]

end Token

variable {pos : Nat} {c : Char} {cs : List Char} {t : Token} {ts : List Token}

/-- The first token of a text comes from one gap and one token at its start. -/
theorem tokensFrom_cons (h : tokensFrom pos cs = .ok (t :: ts)) :
    ∃ gap c rest lexeme, scanGap .between pos cs = .ok gap ∧ gap.rest = c :: rest ∧
      scanLexeme (pos + byteSize gap.text) c rest = .ok lexeme ∧
      tokensFrom (pos + byteSize gap.text + byteSize lexeme.text) lexeme.rest = .ok ts ∧
      t = ⟨lexeme.kind, String.ofList gap.text, String.ofList lexeme.text, pos + byteSize gap.text,
        gap.newline⟩ := by
  rw [tokensFrom] at h
  split at h
  · cases h
  · next gap hgap =>
    split at h
    · cases h
    · next c rest hrest =>
      simp only at h
      split at h
      · cases h
      · next lexeme hlexeme =>
        obtain ⟨tail, htail, heq⟩ := ok_of_map_eq_ok h
        obtain ⟨rfl, rfl⟩ := List.cons.inj heq
        exact ⟨gap, c, rest, lexeme, hgap, hrest, hlexeme, htail, rfl⟩

/-- A gap and a token at the start of a text are its first token. -/
theorem tokensFrom_of_gap {gap : Gap} {rest : List Char}
    {lexeme : Lexeme} (hgap : scanGap .between pos cs = .ok gap) (hrest : gap.rest = c :: rest)
    (hlexeme : scanLexeme (pos + byteSize gap.text) c rest = .ok lexeme)
    (htail : tokensFrom (pos + byteSize gap.text + byteSize lexeme.text) lexeme.rest = .ok ts) :
    tokensFrom pos cs =
      .ok (⟨lexeme.kind, String.ofList gap.text, String.ofList lexeme.text, pos + byteSize gap.text,
        gap.newline⟩ :: ts) := by
  rw [tokensFrom]
  split
  · next heq =>
    rw [hgap] at heq
    cases heq
  · next gap' heq =>
    rw [hgap] at heq
    cases heq
    split
    · next heq =>
      rw [hrest] at heq
      cases heq
    · next c' rest' heq =>
      rw [hrest] at heq
      cases heq
      simp only
      split
      · next heq =>
        rw [hlexeme] at heq
        cases heq
      · next lexeme' heq =>
        rw [hlexeme] at heq
        cases heq
        rw [htail]
        rfl

/-- A token that stands in front of any text. -/
theorem tokensFrom_fixed (pos : Nat) (lead : List Char) (c : Char) (cs : List Char) {after : List Char}
    {kind : TokenKind} {ts : List Token}
    (hgap : scanGap .between pos (lead ++ c :: (cs ++ after)) = .ok ⟨lead, false, c :: (cs ++ after)⟩)
    (hlexeme : scanLexeme (pos + byteSize lead) c (cs ++ after) = .ok ⟨kind, c :: cs, after⟩)
    (htail : tokensFrom (pos + byteSize lead + byteSize (c :: cs)) after = .ok ts) :
    tokensFrom pos (lead ++ c :: (cs ++ after)) =
      .ok (⟨kind, String.ofList lead, String.ofList (c :: cs), pos + byteSize lead, false⟩ :: ts) :=
  tokensFrom_of_gap hgap rfl hlexeme htail

variable {us : List Token} {l : Lexeme}

/-- What follows a gap begins with a token, and then with the tokens behind it. -/
theorem isPrefix_rest_of_scanLexeme {gap : Gap} {rest after : List Char} (hrest : gap.rest = c :: rest)
    (hlexeme : scanLexeme pos c rest = .ok l) (hafter : after <+: l.rest) : l.text ++ after <+: gap.rest := by
  rw [hrest, ← scanLexeme_append hlexeme]
  exact (prefix_append_right_inj _).mpr hafter

theorem layout_of_tokensFrom (h : tokensFrom pos cs = .ok (ts ++ us)) : layout ts <+: cs := by
  induction ts generalizing pos cs with
  | nil => exact List.nil_prefix
  | cons t ts ih =>
    obtain ⟨gap, c, rest, lexeme, hgap, hrest, hlexeme, htail, rfl⟩ := tokensFrom_cons h
    rw [layout_cons, String.toList_ofList, String.toList_ofList, ← scanGap_append hgap]
    exact (prefix_append_right_inj _).mpr (isPrefix_rest_of_scanLexeme hrest hlexeme (ih htail))

theorem tokensFrom_nil (pos : Nat) : tokensFrom pos [] = .ok [] := by
  rw [tokensFrom]
  rfl

/-- The token in front of a text that is cut short behind it, behind any gap at any offset. -/
theorem tokensFrom_lexeme {lexeme : Lexeme} (hlexeme : scanLexeme pos c cs = .ok lexeme) {pos' : Nat}
    {ds rest text : List Char} {newline : Bool} (hrest : rest <+: lexeme.rest)
    (hgap : scanGap .between pos' ds = .ok ⟨text, newline, lexeme.text ++ rest⟩)
    (htail : tokensFrom (pos' + byteSize text + byteSize lexeme.text) rest = .ok ts) : tokensFrom pos' ds =
      .ok (⟨lexeme.kind, String.ofList text, String.ofList lexeme.text, pos' + byteSize text,
        newline⟩ :: ts) := by
  obtain ⟨es, hes, hcut⟩ := scanLexeme_cut hlexeme (pos' + byteSize text) hrest
  have hcons : lexeme.text ++ rest = c :: (es ++ rest) := by rw [hes, cons_append]
  have hfirst := tokensFrom_of_gap hgap hcons hcut htail
  exact hfirst

/-- The gaps and tokens of a run, laid out at a smaller offset, have the same tokens. -/
theorem tokensFrom_layout (h : tokensFrom pos cs = .ok (ts ++ us)) {base : Nat} (hbase : base ≤ pos) :
    tokensFrom (pos - base) (layout ts) = .ok (ts.map (rebase base)) := by
  induction ts generalizing pos cs with
  | nil => exact tokensFrom_nil _
  | cons t ts ih =>
    obtain ⟨gap, c, rest, lexeme, hgap, hrest, hlexeme, htail, rfl⟩ := tokensFrom_cons h
    have hlayout := layout_of_tokensFrom htail
    have hgap' := scanGap_cut hgap (pos - base) (isPrefix_rest_of_scanLexeme hrest hlexeme hlayout)
    have hrest' := ih htail (by omega)
    have hshift : pos + byteSize gap.text - base = pos - base + byteSize gap.text := by omega
    have htail' : tokensFrom (pos - base + byteSize gap.text + byteSize lexeme.text)
        (layout ts) = .ok (ts.map (rebase base)) := by
      rw [← hrest']
      congr 1
      omega
    rw [layout_cons, String.toList_ofList, String.toList_ofList,
      tokensFrom_lexeme hlexeme hlayout hgap' htail', List.map_cons, rebase, hshift]

/-- The tokens behind the first ones are the tokens of the text behind those. -/
theorem tokensFrom_append (h : tokensFrom pos cs = .ok (ts ++ us)) :
    ∃ pos' cs', tokensFrom pos' cs' = .ok us := by
  induction ts generalizing pos cs with
  | nil => exact ⟨pos, cs, h⟩
  | cons t ts ih =>
    obtain ⟨gap, c, rest, lexeme, -, -, -, htail, -⟩ := tokensFrom_cons h
    exact ih htail

/-- **The tokens of a part.** The text from one token of a source to another has exactly the tokens between
them. The first of them loses its gap, and all are moved to the front. -/
theorem tokenize_joined {source : String} {before after : List Token}
    (h : tokenize source = .ok (before ++ (t :: ts ++ after))) :
    tokenize (joined (t :: ts)) = .ok ((t.leading :: ts).map (rebase t.start)) := by
  obtain ⟨pos, cs, hcs⟩ := tokensFrom_append h
  obtain ⟨gap, c, rest, lexeme, hgap, hrest, hlexeme, htail, rfl⟩ := tokensFrom_cons hcs
  have hlayout := layout_of_tokensFrom htail
  -- the text begins where the gap has ended, so no other gap comes first
  have hgap' := scanGap_rest hgap 0 (isPrefix_rest_of_scanLexeme hrest hlexeme hlayout)
  have htail' := tokensFrom_layout htail (Nat.le_add_right (pos + byteSize gap.text) _)
  rw [Nat.add_sub_cancel_left] at htail'
  rw [tokenize, toList_joined, String.toList_ofList]
  rw [← Nat.zero_add (byteSize lexeme.text)] at htail'
  rw [tokensFrom_lexeme hlexeme hlayout hgap' htail', List.map_cons, leading, rebase,
    Nat.sub_self]
  rfl

theorem lexical_of_tokensFrom (h : tokensFrom pos cs = .ok ts) : ∀ t ∈ ts, t.Lexical := by
  refine tokensFrom_induction (motive := fun _ _ ts => ∀ t ∈ ts, Token.Lexical t) ?_ ?_ h
  · intro pos cs gap hgap hrest t ht
    exact absurd ht not_mem_nil
  · intro pos cs gap c rest lexeme tail hgap hrest hlexeme htail ih t ht
    rcases mem_cons.mp ht with rfl | ht
    · obtain ⟨ds, hds, hcut⟩ := scanLexeme_cut hlexeme 0 List.nil_prefix
      rw [append_nil, hds] at hcut
      exact ⟨c, ds, by rw [String.toList_ofList, hds], hcut⟩
    · exact ih t ht

/-! ## The first character of a word -/

theorem kind_of_scanNumeral (cs : List Char) :
    (scanNumeral cs).kind = .floatLiteral ∨ (scanNumeral cs).kind = .integerLiteral :=
  ite_eq_or_eq _ _ _

theorem kind_of_scanPound (h : scanPound pos cs = .ok l) :
    l.kind = .stringLiteral ∨ l.kind = .poundDirective ∨ l.kind = .punct := by
  unfold scanPound at h
  simp only at h
  split at h
  · obtain ⟨p, -, rfl⟩ := ok_of_map_eq_ok h
    exact .inl rfl
  · split at h
    · cases h
      exact .inr (.inl rfl)
    · cases h
      exact .inr (.inr rfl)

theorem kind_of_scanPunct (h : scanPunct c cs = some l) :
    l.kind = .atSign ∨ l.kind = .backslash ∨ l.kind = .arrow ∨ l.kind = .ellipsis ∨ l.kind = .punct := by
  unfold scanPunct at h
  split at h
  · cases h
    exact .inl rfl
  · cases h
    exact .inr (.inl rfl)
  · cases h
    exact .inr (.inr (.inl rfl))
  · cases h
    exact .inr (.inr (.inr (.inl rfl)))
  · cases h
    exact .inr (.inr (.inr (.inr rfl)))
  · split at h
    · cases h
      exact .inr (.inr (.inr (.inr rfl)))
    · cases h

/-- The first character of a token decides whether the token is a word. -/
theorem Token.Lexical.isWord_eq (h : t.Lexical)
    (htext : t.text.toList = c :: cs) : t.isWord = (isIdentifierStart c || c == '\x60' || c == '$') := by
  obtain ⟨d, ds, hds, hscan⟩ := h
  rw [htext, List.cons.injEq] at hds
  obtain ⟨rfl, rfl⟩ := hds
  generalize hl : Lexeme.mk t.kind (c :: cs) [] = l at hscan
  have hkind : t.kind = l.kind := congrArg Lexeme.kind hl
  rw [isWord, hkind]
  cases scanned_of_scanLexeme hscan with
  | word hstart =>
    rw [hstart, scanIdentifier]
    dsimp only
    split <;> rfl
  | escaped | dollar | string => rfl
  | numeral hstart hdigit =>
    have hquoted : (c == '\x60') = false := beq_eq_false_iff_ne.mpr (ne_of_isDigit hdigit (by decide))
    have hdollar : (c == '$') = false := beq_eq_false_iff_ne.mpr (ne_of_isDigit hdigit (by decide))
    rw [hstart, hquoted, hdollar]
    rcases kind_of_scanNumeral (c :: cs) with hk | hk <;> rw [hk] <;> rfl
  | pound hl => rcases kind_of_scanPound hl with hk | hk | hk <;> rw [hk] <;> rfl
  | sign hc hl =>
    simp only [startsSign, Bool.not_eq_true', Bool.or_eq_false_iff] at hc
    obtain ⟨⟨⟨⟨⟨hstart, hquoted⟩, hdollar⟩, -⟩, -⟩, -⟩ := hc
    rw [hstart, hquoted, hdollar]
    rcases kind_of_scanPunct hl with hk | hk | hk | hk | hk <;> rw [hk] <;> rfl

/-! ## Tokens of one text -/

theorem text_of_scanPunct (h : scanPunct c cs = some l) :
    (l.kind = .arrow → l.text = ['-', '>']) ∧ (l.kind = .ellipsis → l.text = ['.', '.', '.']) := by
  unfold scanPunct at h
  split at h
  case h_6 =>
    split at h
    · cases h
      exact ⟨nofun, nofun⟩
    · cases h
  all_goals
    cases h
    exact ⟨by simp, by simp⟩

/-- A token that is no sign is of another class than these. -/
theorem scanPunct_of_scanLexeme (h : scanLexeme pos c cs = .ok l) :
    scanPunct c cs = some l ∨ (l.kind ≠ .arrow ∧ l.kind ≠ .ellipsis) := by
  cases scanned_of_scanLexeme h with
  | word =>
    rw [scanIdentifier]
    cases isKeyword (String.ofList ((c :: cs).takeWhile isIdentifierPart)) <;> exact .inr ⟨by simp, by simp⟩
  | escaped | dollar | string => exact .inr ⟨by simp, by simp⟩
  | numeral =>
    rcases kind_of_scanNumeral (c :: cs) with hkind | hkind <;> exact .inr ⟨by simp [hkind], by simp [hkind]⟩
  | pound hl =>
    rcases kind_of_scanPound hl with hkind | hkind | hkind <;> exact .inr ⟨by simp [hkind], by simp [hkind]⟩
  | sign _ hl => exact .inl hl

/-- The text of the tokens of some classes. -/
theorem Token.Lexical.text_of_kind (h : t.Lexical) :
    (t.kind = .arrow → t.text = "->") ∧ (t.kind = .ellipsis → t.text = "...") := by
  obtain ⟨c, cs, htext, hscan⟩ := h
  have hcs : (t.kind = .arrow → c :: cs = ['-', '>']) ∧ (t.kind = .ellipsis → c :: cs = ['.', '.', '.']) := by
    rcases scanPunct_of_scanLexeme hscan with hl | ⟨harrow, hellipsis⟩
    · exact text_of_scanPunct hl
    · exact ⟨fun hkind => absurd hkind harrow, fun hkind => absurd hkind hellipsis⟩
  refine ⟨fun hkind => ?_, fun hkind => ?_⟩
  · exact String.toList_injective (htext.trans (hcs.1 hkind))
  · exact String.toList_injective (htext.trans (hcs.2 hkind))

theorem Token.Lexical.text_ne_empty (h : t.Lexical) : t.text ≠ "" := by
  obtain ⟨c, cs, htext, -⟩ := h
  intro hempty
  rw [hempty] at htext
  cases htext

end SwiftOutline
