import SwiftOutline.Proofs.Token.Seam

/-!
# `Joined` — two texts with a line feed between them

A line feed between two texts keeps their tokens apart: no token goes on past it, and a line comment ends
there. So the tokens are those of the first text and then those of the second. What is left of the first
text behind its last token goes to the gap of the token that follows.
-/

namespace SwiftOutline

open Text

/-! ## One token at a time -/

/-- The tokens of a text that begins at byte `pos` with this gap. -/
def tokensAfter (pos : Nat) (gap : Gap) : Except LexError (List Token) :=
  match gap.rest with
  | [] => .ok []
  | c :: rest => (scanLexeme (pos + byteSize gap.text) c rest).bind fun lexeme =>
    (tokensFrom (pos + byteSize gap.text + byteSize lexeme.text) lexeme.rest).map
      (⟨lexeme.kind, String.ofList gap.text, String.ofList lexeme.text, pos + byteSize gap.text,
        gap.newline⟩ :: ·)

/-- The tokens of a text are found behind its gap. -/
theorem tokensFrom_eq (pos : Nat) (cs : List Char) :
    tokensFrom pos cs = (scanGap .between pos cs).bind (tokensAfter pos) := by
  rw [tokensFrom]
  split
  · next hgap =>
    rw [hgap]
    rfl
  · next gap hgap =>
    rw [hgap]
    show _ = tokensAfter pos gap
    rw [tokensAfter]
    split
    · next hrest => rw [hrest]
    · next c rest hrest =>
      rw [hrest]
      simp only
      split
      · next hlexeme =>
        rw [hlexeme]
        rfl
      · next hlexeme =>
        rw [hlexeme]
        rfl

variable {pos : Nat} {cs : List Char}

theorem tokensFrom_of_scanGap {gap : Gap} (hgap : scanGap .between pos cs = .ok gap) :
    tokensFrom pos cs = tokensAfter pos gap := by
  rw [tokensFrom_eq, hgap]
  rfl

theorem tokensAfter_cons {gap : Gap} {c : Char} {rest : List Char} {lexeme : Lexeme}
    (hrest : gap.rest = c :: rest) (hlexeme : scanLexeme (pos + byteSize gap.text) c rest = .ok lexeme) :
    tokensAfter pos gap = (tokensFrom (pos + byteSize gap.text + byteSize lexeme.text) lexeme.rest).map
        (⟨lexeme.kind, String.ofList gap.text, String.ofList lexeme.text, pos + byteSize gap.text,
          gap.newline⟩ :: ·) := by
  rw [tokensAfter, hrest]
  simp only [hlexeme]
  rfl

/-! ## A longer gap -/

/-- The tokens with more text in front of the gap of the first, which may break a line. -/
def Token.behind (front : List Char) (newline : Bool) : List Token → List Token
  | [] => []
  | t :: ts =>
    { t with lead := String.ofList front ++ t.lead, newlineBefore := newline || t.newlineBefore } :: ts

/-- **Text in front that only makes the first gap longer.** -/
theorem tokensFrom_push {front after : List Char} {newline : Bool}
    (hscan : scanGap .between pos cs = (scanGap .between (pos + byteSize front) after).map
      (·.push front newline)) :
    tokensFrom pos cs = (tokensFrom (pos + byteSize front) after).map (Token.behind front newline) := by
  rw [tokensFrom_eq pos cs, hscan, tokensFrom_eq (pos + byteSize front) after]
  cases scanGap .between (pos + byteSize front) after with
  | error e => rfl
  | ok gap =>
    show tokensAfter pos (gap.push front newline) = (tokensAfter (pos + byteSize front) gap).map _
    have hstart : pos + byteSize (gap.push front newline).text =
        pos + byteSize front + byteSize gap.text := by
      rw [Gap.push_text, byteSize_append, Nat.add_assoc]
    rw [tokensAfter, tokensAfter, hstart, Gap.push_rest]
    cases gap.rest with
    | nil => rfl
    | cons c rest =>
      simp only
      cases scanLexeme (pos + byteSize front + byteSize gap.text) c rest with
      | error e => rfl
      | ok lexeme =>
        show Except.map _ _ = Except.map _ (Except.map _ _)
        cases tokensFrom (pos + byteSize front + byteSize gap.text + byteSize lexeme.text) lexeme.rest with
        | error e => rfl
        | ok ts =>
          show Except.ok (_ :: ts) = Except.ok (Token.behind front newline (_ :: ts))
          rw [Token.behind, Gap.push_text, String.ofList_append]
          rfl

/-- A line feed in front of a text. -/
theorem scanGap_newline (pos : Nat) (cs : List Char) :
    scanGap .between pos ('\n' :: cs) = (scanGap .between (pos + 1) cs).map (·.push ['\n'] true) :=
  scanGap_blank (by decide) pos cs

/-! ## Two texts -/

/-- **The tokens of two texts with a line feed between them** are those of both, the first of the second
text behind what the first text ends with. If the second text has none, for its error, the two have the
same. -/
theorem tokensFrom_joined {ts : List Token} (h : tokensFrom pos cs = .ok ts) :
    ∃ front, Token.layout ts ++ front = cs ++ ['\n'] ∧ ∀ after, tokensFrom pos (cs ++ '\n' :: after) =
      (tokensFrom (pos + byteSize cs + 1) after).map fun us => ts ++ Token.behind front true us := by
  refine tokensFrom_induction (motive := fun pos cs ts => ∃ front, Token.layout ts ++ front = cs ++ ['\n'] ∧
    ∀ after, tokensFrom pos (cs ++ '\n' :: after) =
      (tokensFrom (pos + byteSize cs + 1) after).map fun us => ts ++ Token.behind front true us) ?_ ?_ h
  · intro pos cs gap hgap hrest
    have htext : gap.text = cs := by
      rw [← scanGap_append hgap, hrest, List.append_nil]
    refine ⟨cs ++ ['\n'], rfl, fun after => ?_⟩
    -- the line feed ends a line comment, and the gap goes on into the second text
    have hscan := scanGap_swap hgap (.inr (.inr ⟨after, rfl⟩))
    have hpush (x : Except LexError Gap) :
        (x.map (·.push ['\n'] true)).map (·.push cs gap.newline) = x.map (·.push (cs ++ ['\n']) true) := by
      refine (map_push_push x cs gap.newline ⟨['\n'], true, []⟩).trans ?_
      rw [Gap.push, Bool.or_true]
    rw [scanGap_newline, htext, hpush, Nat.add_assoc,
      show byteSize cs + 1 = byteSize (cs ++ ['\n']) from (byteSize_append cs ['\n']).symm] at hscan
    rw [tokensFrom_push hscan, byteSize_append, ← Nat.add_assoc]
    rfl
  · intro pos cs gap c rest lexeme tail hgap hrest hlexeme _ ih
    obtain ⟨front, hlayout, htail⟩ := ih
    have hcs : cs = gap.text ++ (lexeme.text ++ lexeme.rest) := by
      rw [← scanGap_append hgap, hrest, scanLexeme_append hlexeme]
    refine ⟨front, ?_, fun after => ?_⟩
    · rw [Token.layout_cons, hcs, List.append_assoc, List.append_assoc, List.append_assoc, hlayout,
        String.toList_ofList, String.toList_ofList, List.append_assoc]
    have hseam {text : List Char} : Seam text ('\n' :: after) := .mark (by decide) (by decide)
    have hgap' := scanGap_seam hgap (by rw [hrest]; exact List.cons_ne_nil c rest) hseam
    have hlexeme' := scanLexeme_seam hlexeme hseam
    have hbytes : byteSize cs = byteSize gap.text + byteSize lexeme.text + byteSize lexeme.rest := by
      rw [hcs, byteSize_append, byteSize_append, Nat.add_assoc]
    have hrest' : (Gap.mk gap.text gap.newline (gap.rest ++ '\n' :: after)).rest =
        c :: (rest ++ '\n' :: after) := by
      rw [hrest, List.cons_append]
    rw [tokensFrom_of_scanGap hgap', tokensAfter_cons hrest' hlexeme', htail after, hbytes]
    simp only [Nat.add_assoc]
    cases tokensFrom (pos + (byteSize gap.text + (byteSize lexeme.text + (byteSize lexeme.rest + 1)))) after
      with
    | error e => rfl
    | ok us => rfl

end SwiftOutline
