import SwiftOutline.Proofs.Token.Joined

/-!
# `Refused` — where text that has no tokens is refused

Text is refused at a character that opens what is never closed, or that begins no token. This need not be
where a token would begin: a string inside an interpolation may be the one that is not closed. Still the
text from that character on is refused by itself, at its first character and in the same way.
-/

namespace SwiftOutline

open List

variable {pos : Nat} {cs : List Char} {e : LexError}

open Text

theorem error_of_map_eq_error {ε α β : Type} {x : Except ε α} {f : α → β} {e : ε} (h : x.map f = .error e) :
    x = .error e := by
  cases x with
  | error e' =>
    cases h
    rfl
  | ok a => cases h

/-! ## Places in a text -/

/-- At some place of the text, which begins at byte `pos`, the text from there on has the property. -/
def Somewhere (P : Nat → List Char → Prop) (pos : Nat) (cs : List Char) : Prop :=
  ∃ before after, cs = before ++ after ∧ P (pos + byteSize before) after

namespace Somewhere

variable {P Q : Nat → List Char → Prop} {pos : Nat} {cs : List Char}

theorem here (h : P pos cs) : Somewhere P pos cs := ⟨[], cs, rfl, h⟩

theorem append (front : List Char) (h : Somewhere P (pos + byteSize front) cs) :
    Somewhere P pos (front ++ cs) := by
  obtain ⟨before, after, rfl, hafter⟩ := h
  refine ⟨front ++ before, after, (append_assoc ..).symm, ?_⟩
  rw [byteSize_append, ← Nat.add_assoc]
  exact hafter

theorem imp (hPQ : ∀ n ds, P n ds → Q n ds) (h : Somewhere P pos cs) : Somewhere Q pos cs := by
  obtain ⟨before, after, hcs, hafter⟩ := h
  exact ⟨before, after, hcs, hPQ _ _ hafter⟩

end Somewhere

/-! ## Strings inside strings -/

/-- Goes on with the open string `o` behind a string that was read from byte `pos` on. -/
def goOn (o : OpenString) (os : List OpenString) (pos : Nat) (p : List Char × List Char) :
    Except LexError (List Char × List Char) :=
  (scanString o os (pos + byteSize p.1) p.2).map (pushFront p.1)

theorem bind_goOn_pushFront (x : Except LexError (List Char × List Char)) (o : OpenString)
    (os : List OpenString) (front : List Char) (pos : Nat) :
    (x.map (pushFront front)).bind (goOn o os pos) = (x.bind (goOn o os (pos + byteSize front))).map
      (pushFront front) := by
  cases x with
  | error e => rfl
  | ok p =>
    show goOn o os pos (pushFront front p) = (goOn o os (pos + byteSize front) p).map (pushFront front)
    unfold goOn
    rw [pushFront_fst, pushFront_snd, byteSize_append, Nat.add_assoc]
    cases scanString o os (pos + (byteSize front + byteSize p.1)) p.2 with
    | error e => rfl
    | ok q => simp [Except.map, pushFront]

/-- What a step does depends on the innermost string alone. -/
theorem stringStep_outer (s : OpenString) (stack outer : List OpenString) (pos : Nat) (cs : List Char) :
    stringStep s (stack ++ outer) pos cs = (stringStep s stack pos cs).map fun p => (p.1, p.2 ++ outer) := by
  unfold stringStep
  rw [Option.map_bind]
  congr 1
  funext m
  cases m <;> grind [markStep]

/-- **A string inside another is read as if it were alone**, and then the other goes on. -/
theorem scanString_outer (s : OpenString) (stack : List OpenString) (pos : Nat) (cs : List Char)
    (o : OpenString) (os : List OpenString) :
    scanString s (stack ++ o :: os) pos cs = (scanString s stack pos cs).bind (goOn o os pos) := by
  induction s, stack, pos, cs using scanString_induction with
  | step s stack pos cs ih =>
    rw [scanString_eq, stringStep_outer, scanString_eq s stack pos cs]
    rcases hstep : stringStep s stack pos cs with _ | ⟨text, _ | ⟨t, ts⟩⟩
    · rfl
    · rfl
    · show (scanString t (ts ++ o :: os) _ _).map _ = ((scanString t ts _ _).map _).bind _
      rw [ih text t ts hstep, bind_goOn_pushFront]

/-- What a step leaves open: the strings around, with or without the innermost one, or a string that it
opens. -/
theorem opened_of_stringStep {s : OpenString} {outer opened : List OpenString} {cs text : List Char}
    (h : stringStep s outer pos cs = some (text, opened)) :
    opened = outer ∨ (∃ s', s'.start = s.start ∧ opened = s' :: outer) ∨
      ∃ rest, cs = '"' :: rest ∧ text = '"' :: rest.take (openingQuotes rest) ∧
        opened = ⟨openingQuotes rest = 2, pos, 0⟩ :: s :: outer := by
  obtain ⟨m, hm, hstep⟩ := Option.bind_eq_some_iff.mp h
  unfold stringMark at hm
  split at hm <;> cases hm
  · rw [markStep] at hstep
    split at hstep
    · cases hstep
      exact .inr (.inr ⟨_, rfl, rfl, rfl⟩)
    · split at hstep
      all_goals
        cases hstep
        exact .inl rfl
  · grind [markStep]
  · next c tail hnot hescape =>
    by_cases hopens : s.parens ≠ 0 ∧ c = '"'
    · obtain ⟨hparens, rfl⟩ := hopens
      rw [markStep, if_pos hparens, if_pos rfl] at hstep
      cases hstep
      have hquotes : openingQuotes tail = 0 := by
        refine if_neg fun htake => hnot (tail.drop 2) rfl ?_
        have hsplit := List.take_append_drop 2 tail
        rw [htake] at hsplit
        exact hsplit.symm
      exact .inr (.inr ⟨tail, rfl, by rw [hquotes]; rfl, by rw [hquotes]; rfl⟩)
    · have hsame : opened = outer ∨ ∃ s', s'.start = s.start ∧ opened = s' :: outer := by grind [markStep]
      exact hsame.imp_right .inl

/-- A quote opens a string that is in no other. -/
theorem scanLexeme_quote (pos : Nat) (cs : List Char) : scanLexeme pos '"' cs =
      (scanString ⟨openingQuotes cs = 2, pos, 0⟩ [] (pos + 1 + openingQuotes cs)
        (cs.drop (openingQuotes cs))).map
        fun p => ⟨.stringLiteral, '"' :: (cs.take (openingQuotes cs) ++ p.1), p.2⟩ := rfl

theorem byteSize_openingQuotes (cs : List Char) :
    byteSize ('"' :: cs.take (openingQuotes cs)) = 1 + openingQuotes cs := by
  rw [byteSize_cons, openingQuotes]
  by_cases htake : cs.take 2 = ['"', '"']
  · rw [if_pos htake, htake]
    rfl
  · rw [if_neg htake]
    rfl

/-- The text begins with a string that is not closed. -/
def UnclosedString (e : LexError) (pos : Nat) (cs : List Char) : Prop :=
  e = .unterminatedString pos ∧ ∃ after, cs = '"' :: after ∧ scanLexeme pos '"' after = .error e

/-- **The string that is not closed** is the one that is read, or one inside it, which is then not closed
by itself. -/
theorem scanString_error {s : OpenString} (h : scanString s [] pos cs = .error e) :
    e = .unterminatedString s.start ∨ Somewhere (UnclosedString e) pos cs := by
  induction hn : cs.length using Nat.strongRecOn generalizing s pos cs with
  | ind n ih =>
    rw [scanString_eq] at h
    rcases hstep : stringStep s [] pos cs with _ | ⟨text, opened⟩ <;> rw [hstep] at h
    · cases h
      exact .inl rfl
    obtain ⟨hne, happend⟩ := exists_of_stringStep hstep
    rcases opened_of_stringStep hstep with rfl | ⟨s', hs, rfl⟩ | ⟨rest, rfl, rfl, rfl⟩
    · cases h
    · have hlt : (cs.drop text.length).length < n := by
        have hpos := length_pos_iff.mpr hne
        rw [← hn, ← happend, length_append, drop_left]
        omega
      have herror := ih _ hlt (error_of_map_eq_error h) rfl
      rw [hs] at herror
      exact happend ▸ herror.imp_right (Somewhere.append text)
    · -- a string opens inside, and it is read as if it were alone
      have hopening : '"' :: rest = ('"' :: rest.take (openingQuotes rest)) ++
          rest.drop (openingQuotes rest) := by
        rw [cons_append, take_append_drop]
      have hlength : (rest.drop (openingQuotes rest)).length < n := by
        rw [← hn, length_cons, length_drop]
        omega
      have herror : scanString ⟨openingQuotes rest = 2, pos, 0⟩ [s] _ _ = .error e := error_of_map_eq_error h
      rw [append_cancel_left (happend.trans hopening)] at herror
      rw [show [s] = [] ++ s :: [] from rfl, scanString_outer] at herror
      cases hinner : scanString ⟨openingQuotes rest = 2, pos, 0⟩ []
          (pos + byteSize ('"' :: rest.take (openingQuotes rest))) (rest.drop (openingQuotes rest)) with
      | error e' =>
        right
        rw [hinner] at herror
        cases herror
        rcases ih _ hlength hinner rfl with hself | hnested
        · refine .here ⟨hself, rest, rfl, ?_⟩
          rw [scanLexeme_quote, Nat.add_assoc, ← byteSize_openingQuotes, hinner]
          rfl
        · rw [hopening]
          exact hnested.append _
      | ok p =>
        rw [hinner] at herror
        have hbehind : scanString s []
            (pos + byteSize ('"' :: rest.take (openingQuotes rest)) + byteSize p.1) p.2 = .error e :=
          error_of_map_eq_error herror
        have happend := scanString_append hinner
        rw [hopening, ← happend]
        rw [← happend, length_append] at hlength
        exact (ih p.2.length (by omega) hbehind rfl).imp_right fun hrest => (hrest.append _).append _

/-! ## Gaps -/

/-- The text begins with a block comment that is not closed. -/
def UnclosedComment (e : LexError) (pos : Nat) (cs : List Char) : Prop :=
  e = .unterminatedComment pos ∧ (∃ after, cs = '/' :: '*' :: after) ∧ scanGap .between pos cs = .error e

/-- The scan is in a block comment, and it is the one that the error names. -/
def GapMode.Unclosed (e : LexError) : GapMode → Prop
  | block start _ => e = .unterminatedComment start
  | _ => False

/-- **The comment that is not closed** is the one that the scan is in, or one that opens in the text,
which is then not closed by itself. -/
theorem scanGap_error {mode : GapMode} (h : scanGap mode pos cs = .error e) :
    mode.Unclosed e ∨ Somewhere (UnclosedComment e) pos cs := by
  fun_induction scanGap mode pos cs with
  | case1 =>
    cases h
    exact .inl rfl
  | case2 | case6 => cases h
  | case3 _ _ ih => exact (ih (error_of_map_eq_error h)).imp_right (.append ['/', '/'])
  | case4 pos cs ih =>
    -- a comment opens here
    rcases ih (error_of_map_eq_error h) with he | hlater
    · exact .inr (.here ⟨he, ⟨cs, rfl⟩, h⟩)
    · exact .inr (hlater.append ['/', '*'])
  | case5 _ c _ _ _ _ ih | case12 _ _ _ c _ _ _ _ ih =>
    exact (ih (error_of_map_eq_error h)).imp_right (.append [c])
  | case7 _ _ ih => exact (ih (error_of_map_eq_error h)).imp_right (.append ['\n'])
  | case8 _ c _ _ ih => exact (ih (error_of_map_eq_error h)).imp_right (.append [c])
  | case9 _ _ _ _ ih => exact (ih (error_of_map_eq_error h)).imp_right (.append ['/', '*'])
  | case10 _ _ _ ih => exact (ih (error_of_map_eq_error h)).imp False.elim (.append ['*', '/'])
  | case11 _ _ _ _ ih => exact (ih (error_of_map_eq_error h)).imp_right (.append ['*', '/'])

/-! ## Tokens -/

/-- An ASCII character that is a control. -/
def isAsciiControl (c : Char) : Bool := c.toNat < 0x20 || c.toNat == 0x7f

/-- The character `c`, with `cs` behind it, is one that the error can be about: it opens a string, raw or
not, or a block comment, or it is the character that the error names, and that opens a name which its
line does not close or is a control that is not blank. -/
def LexError.Blames (c : Char) (cs : List Char) : LexError → Prop
  | unterminatedString _ => c = '"' ∨ (c = '#' ∧ StartsRaw cs)
  | unterminatedComment _ => c = '/' ∧ cs.head? = some '*'
  | unexpectedCharacter d _ =>
    c = d ∧ ((c = '\x60' ∧ '\x60' ∉ cs.takeWhile (· != '\n')) ∨ (isAsciiControl c = true ∧ isBlank c = false))

/-- The text is refused at its first character, which the error is about. -/
def Refused (e : LexError) (pos : Nat) (cs : List Char) : Prop :=
  e.offset = pos ∧ (∃ c after, cs = c :: after ∧ e.Blames c after) ∧ tokensFrom pos cs = .error e

theorem UnclosedComment.refused (h : UnclosedComment e pos cs) : Refused e pos cs := by
  obtain ⟨rfl, ⟨after, rfl⟩, hscan⟩ := h
  refine ⟨rfl, ⟨'/', '*' :: after, rfl, rfl, rfl⟩, ?_⟩
  rw [tokensFrom_eq, hscan]
  rfl

/-- A token that is refused at a character that begins no gap. -/
theorem refused_of_scanLexeme {c : Char} (hblank : isBlank c = false) (hslash : c ≠ '/')
    (hoffset : e.offset = pos) (hblames : e.Blames c cs) (h : scanLexeme pos c cs = .error e) :
    Refused e pos (c :: cs) := by
  have hstop : scanGap .between pos (c :: cs) = .ok ⟨[], false, c :: cs⟩ := by
    refine scanGap_stop hblank ?_ pos
    exact opensComment_eq_false (fun _ hc _ => hslash hc) (fun _ hc _ => hslash hc)
  refine ⟨hoffset, ⟨c, cs, rfl, hblames⟩, ?_⟩
  rw [tokensFrom_of_scanGap hstop, tokensAfter]
  simp only [byteSize_nil, Nat.add_zero, h]
  rfl

theorem UnclosedString.refused (h : UnclosedString e pos cs) : Refused e pos cs := by
  obtain ⟨rfl, after, rfl, hscan⟩ := h
  exact refused_of_scanLexeme (by decide) (by decide) rfl (.inl rfl) hscan

theorem not_mem_line_of_scanEscaped (h : scanEscaped cs = none) : '\x60' ∉ cs.takeWhile (· != '\n') := by
  fun_induction scanEscaped cs with
  | case1 => exact List.not_mem_nil
  | case2 => cases h
  | case3 cs => simp
  | case4 c cs htick hline ih =>
    have hrest := ih (Option.map_eq_none_iff.mp h)
    rw [List.takeWhile_cons_of_pos (by simpa using hline), List.mem_cons]
    exact not_or.mpr ⟨Ne.symm htick, hrest⟩

/-- A character that begins no token and no gap is a control. -/
theorem isAsciiControl_of_scanPunct {c : Char} (hblank : isBlank c = false)
    (hstart : isIdentifierStart c = false) (hdigit : c.isDigit = false) (h : scanPunct c cs = none) :
    isAsciiControl c = true := by
  have hpunct : isAsciiPunctuation c = false := by
    unfold scanPunct at h
    split at h <;> simp_all
  have hspace : c.toNat ≠ 0x20 := by
    intro hspace
    simp [isBlank, hspace] at hblank
  simp only [isIdentifierStart, hblank, Bool.not_false, Bool.and_true, Bool.or_eq_false_iff,
    decide_eq_false_iff_not] at hstart
  simp only [isAsciiPunctuation, Char.isAlphanum, hstart.1.2, hdigit, Bool.or_false,
    Bool.not_false, Bool.and_true, Bool.and_eq_false_iff, decide_eq_false_iff_not] at hpunct
  simp only [isAsciiControl, Bool.or_eq_true, decide_eq_true_eq, beq_iff_eq]
  omega

/-- A hash sign is refused only where it opens a raw string. -/
theorem scanPound_error (h : scanPound pos cs = .error e) : e = .unterminatedString pos ∧ StartsRaw cs := by
  by_cases hraw : StartsRaw cs
  · refine ⟨?_, hraw⟩
    obtain ⟨hashes, ds, hhashes, rfl⟩ := hraw
    rw [scanPound_raw hhashes] at h
    have hscan := error_of_map_eq_error h
    simp only [scanRawString] at hscan
    split at hscan
    · cases hscan
    · cases hscan
      rfl
  · by_cases hstart : cs.head?.any isIdentifierStart = true
    · rw [scanPound_directive hraw hstart] at h
      cases h
    · rw [scanPound_alone hraw hstart] at h
      cases h

/-- **The character at which a token is refused** is that of a string that is not closed, of a name that
is not closed, or one that begins no token. -/
theorem scanLexeme_error {c : Char} (hblank : isBlank c = false)
    (h : scanLexeme pos c cs = .error e) : Somewhere (Refused e) pos (c :: cs) := by
  have hscan := h
  revert h
  fun_cases scanLexeme pos c cs with
  | case1 | case2 | case4 | case5 | case8 =>
    intro h
    cases h
  | case3 _ htick hescaped =>
    intro h
    cases h
    subst htick
    exact .here (refused_of_scanLexeme hblank (by decide) rfl
      ⟨rfl, .inl ⟨rfl, not_mem_line_of_scanEscaped hescaped⟩⟩ hscan)
  | case6 _ _ _ _ hquote =>
    -- the string itself is not closed, or one inside it
    intro _
    subst hquote
    have hstring := hscan
    rw [scanLexeme_quote, Nat.add_assoc, ← byteSize_openingQuotes] at hstring
    rcases scanString_error (error_of_map_eq_error hstring) with rfl | hinside
    · exact .here (refused_of_scanLexeme hblank (by decide) rfl (.inl rfl) hscan)
    · have hsplit : '"' :: cs = '"' :: cs.take (openingQuotes cs) ++ cs.drop (openingQuotes cs) := by
        rw [cons_append, take_append_drop]
      rw [hsplit]
      exact (hinside.imp fun _ _ => UnclosedString.refused).append _
  | case7 _ _ _ _ _ hhash =>
    intro h
    subst hhash
    obtain ⟨rfl, hraw⟩ := scanPound_error h
    exact .here (refused_of_scanLexeme hblank (by decide) rfl (.inr ⟨rfl, hraw⟩) hscan)
  | case9 hstart _ _ hdigit _ _ hpunct =>
    intro h
    cases h
    have hcontrol := isAsciiControl_of_scanPunct hblank (eq_false_of_ne_true hstart)
        (eq_false_of_ne_true hdigit) hpunct
    have hslash : c ≠ '/' := by
      rintro rfl
      exact absurd hcontrol (by decide)
    exact .here (refused_of_scanLexeme hblank hslash rfl ⟨rfl, .inr ⟨hcontrol, hblank⟩⟩ hscan)

/-- **Where text that has no tokens is refused.** The text is a part that is read and a rest that is
refused, with the same error, at its first character. -/
theorem tokensFrom_error (h : tokensFrom pos cs = .error e) : Somewhere (Refused e) pos cs := by
  induction hn : cs.length using Nat.strongRecOn generalizing pos cs with
  | ind n ih =>
    rw [tokensFrom_eq] at h
    cases hgap : scanGap .between pos cs with
    | error e' =>
      rw [hgap] at h
      cases h
      exact ((scanGap_error hgap).resolve_left id).imp fun _ _ => UnclosedComment.refused
    | ok gap =>
      rw [hgap] at h
      change tokensAfter pos gap = .error e at h
      have hcs := scanGap_append hgap
      rw [← hcs]
      apply Somewhere.append
      rw [tokensAfter] at h
      split at h
      · cases h
      · next c rest hrest =>
        rw [hrest] at hcs ⊢
        cases hlexeme : scanLexeme (pos + byteSize gap.text) c rest with
        | error e' =>
          rw [hlexeme] at h
          cases h
          have hstop : scanGap .between pos (c :: rest) = .ok ⟨[], false, c :: rest⟩ :=
            scanGap_rest hgap pos ⟨[], by rw [hrest, append_nil]⟩
          exact scanLexeme_error (stop_of_scanGap hstop).1 hlexeme
        | ok lexeme =>
          rw [hlexeme] at h
          have hbehind := error_of_map_eq_error h
          have hlt : lexeme.rest.length < n := by
            have hshort := length_rest_lt_of_scanLexeme hlexeme
            rw [← hn, ← hcs, length_append]
            simp only [length_cons] at hshort ⊢
            omega
          rw [← scanLexeme_append hlexeme]
          exact (ih _ hlt hbehind rfl).append _

end SwiftOutline
