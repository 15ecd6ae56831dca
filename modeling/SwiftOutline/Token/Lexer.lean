import SwiftOutline.Token.Lexeme

/-!
# Splitting source text into tokens
-/

namespace SwiftOutline

/-- The tokens of the text, which begins at byte `pos`. Each step takes at least one character. -/
def tokensFrom (pos : Nat) (cs : List Char) : Except LexError (List Token) :=
  match _hg : scanGap .between pos cs with
  | .error e => .error e
  | .ok gap =>
    match _hr : gap.rest with
    | [] => .ok []
    | c :: rest =>
      let start := pos + Text.byteSize gap.text
      match _hl : scanLexeme start c rest with
      | .error e => .error e
      | .ok lexeme =>
        (tokensFrom (start + Text.byteSize lexeme.text) lexeme.rest).map
          (⟨lexeme.kind, String.ofList gap.text, String.ofList lexeme.text, start, gap.newline⟩ :: ·)
termination_by cs.length
decreasing_by
  have hgap := length_rest_le_of_scanGap _hg
  have hlexeme := length_rest_lt_of_scanLexeme _hl
  rw [_hr] at hgap
  omega

/-- The tokens of a source text, in order. -/
def tokenize (source : String) : Except LexError (List Token) := tokensFrom 0 source.toList

end SwiftOutline
