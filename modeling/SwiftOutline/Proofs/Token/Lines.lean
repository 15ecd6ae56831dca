import SwiftOutline.Proofs.Token.Joined

/-!
# `Lines` — texts one below the other

No scan asks where in a source it stands: it only counts, so that tokens and errors have their offsets. A
text that begins further on therefore has the same tokens and the same error, all further on by as much.
With a line feed between them two texts do not touch, so the tokens of the first are followed by those of
the second, or by the error of the second.
-/

namespace SwiftOutline

/-- The token in a text that stands `base` bytes further on. -/
def Token.shiftUp (base : Nat) (t : Token) : Token := { t with start := t.start + base }

/-- **The outcome for a text does not hang on where it begins**, but for the offsets. -/
theorem tokensFrom_from (base pos : Nat) (cs : List Char) :
    tokensFrom (pos + base) cs = (shiftError base (tokensFrom pos cs)).map
      (List.map (Token.shiftUp base)) := by
  induction hn : cs.length using Nat.strongRecOn generalizing pos cs with
  | ind n ih =>
    have hgap := scanGap_from base .between pos cs
    rw [tokensFrom_eq, show GapMode.between = GapMode.between.shiftUp base from rfl, hgap, tokensFrom_eq]
    cases hscan : scanGap .between pos cs with
    | error e => rfl
    | ok gap =>
      show tokensAfter (pos + base) gap = (shiftError base (tokensAfter pos gap)).map _
      have hstart : pos + base + Text.byteSize gap.text = pos + Text.byteSize gap.text + base :=
        Nat.add_right_comm _ _ _
      rw [tokensAfter, tokensAfter, hstart]
      cases hrest : gap.rest with
      | nil => rfl
      | cons c rest =>
        simp only
        rw [scanLexeme_from]
        cases hlexeme : scanLexeme (pos + Text.byteSize gap.text) c rest with
        | error e => rfl
        | ok lexeme =>
          -- the rest is shorter, since the token has text
          have hlt : lexeme.rest.length < n := by
            have hle := length_rest_le_of_scanGap hscan
            have hshorter := length_rest_lt_of_scanLexeme hlexeme
            rw [hrest] at hle
            omega
          have htail := ih _ hlt (pos + Text.byteSize gap.text + Text.byteSize lexeme.text) lexeme.rest rfl
          show Except.map _ (tokensFrom (pos + Text.byteSize gap.text + base + Text.byteSize lexeme.text)
            lexeme.rest) = _
          rw [Nat.add_right_comm _ base, htail]
          show _ = Except.map _ (shiftError base (Except.map _ _))
          rw [shiftError_map]
          cases tokensFrom (pos + Text.byteSize gap.text + Text.byteSize lexeme.text) lexeme.rest <;> rfl

/-- The tokens of a text that begins at a larger offset. -/
theorem tokensFrom_shiftUp {pos : Nat} {cs : List Char} {ts : List Token} (h : tokensFrom pos cs = .ok ts)
    (base : Nat) : tokensFrom (pos + base) cs = .ok (ts.map (Token.shiftUp base)) := by
  rw [tokensFrom_from, h]
  rfl

/-! ## Two texts -/

/-- **Splitting into tokens distributes over joining with a line feed.** Take two texts, the first of
which can be split into tokens, and a line feed between them. If the second has tokens too, the whole has
those of the first, and then those of the second, further on by the bytes in front of them. The first of
these begins a line, and the gap in front of it begins with what the first text has behind its last
token. If the second text has an error, so has the whole, at the same place of the second text. -/
theorem tokenize_two_lines {a : String} {xs : List Token} (ha : tokenize a = .ok xs) (b : String) :
    (∀ ys, tokenize b = .ok ys → ∃ front, Token.layout xs ++ front = a.toList ++ ['\n'] ∧
      tokenize (a ++ "\n" ++ b) =
        .ok (xs ++ Token.behind front true (ys.map (Token.shiftUp (a.utf8ByteSize + 1))))) ∧
    ∀ e, tokenize b = .error e → tokenize (a ++ "\n" ++ b) = .error (e.shiftUp (a.utf8ByteSize + 1)) := by
  obtain ⟨front, hfront, hjoined⟩ := tokensFrom_joined ha
  have hwhole : tokenize (a ++ "\n" ++ b) =
      (tokensFrom (0 + (a.utf8ByteSize + 1)) b.toList).map fun us => xs ++ Token.behind front true us := by
    have htext : (a ++ "\n" ++ b).toList = a.toList ++ '\n' :: b.toList := by
      rw [String.toList_append, String.toList_append, List.append_assoc]
      rfl
    rw [tokenize, htext, hjoined, Text.byteSize_toList, Nat.add_assoc]
  rw [tokensFrom_from] at hwhole
  constructor
  · intro ys hb
    refine ⟨front, hfront, ?_⟩
    rw [hwhole, show tokensFrom 0 b.toList = .ok ys from hb]
    rfl
  · intro e hb
    rw [hwhole, show tokensFrom 0 b.toList = .error e from hb]
    rfl

/-- A number that could go on and a comment at the end of the first text, a point and an arrow in the
second; and a second text with a string that is never closed. -/
theorem tokenize_two_lines_comment : ∃ a b xs ys, a = "f 1// a" ∧ b = ".b->" ∧
    xs = [⟨.identifier, "", "f", 0, false⟩, ⟨.integerLiteral, " ", "1", 2, false⟩] ∧
    ys = [⟨.punct, "", ".", 0, false⟩, ⟨.identifier, "", "b", 1, false⟩, ⟨.arrow, "", "->", 2, false⟩] ∧
    (∃ front, Token.layout xs ++ front = a.toList ++ ['\n'] ∧
      tokenize (a ++ "\n" ++ b) = .ok (xs ++ Token.behind front true (ys.map (Token.shiftUp 8)))) ∧
    tokenize (a ++ "\n" ++ "c \"d") = .error (.unterminatedString 10) := by
  have hc : tokenize "c \"d" = .error (.unterminatedString 2) := by
    decide +kernel
  refine ⟨_, _, _, _, rfl, rfl, rfl, rfl, (tokenize_two_lines ?ha _).1 _ ?hb,
    (tokenize_two_lines ?ha _).2 _ hc⟩
  all_goals exact eq_ok_of_toOption (by decide +kernel)

end SwiftOutline
