import SwiftOutline.Proofs.Token.Lines

/-!
# `Enclosed` — a text between directives

A text that is put on lines of its own between `#if DEBUG` and `#endif` keeps its tokens. They stand
further on, by the bytes in front of them, and the first of them has a line feed before its gap. A line
comment at the end of the text does not swallow the directive, since the line feed ends it.
-/

namespace SwiftOutline

namespace Token

/-- The token with a line feed before its gap. -/
def broken (t : Token) : Token := { t with lead := "\n" ++ t.lead, newlineBefore := true }

/-- The tokens with a line feed before all of them. -/
def breakLine : List Token → List Token
  | [] => []
  | t :: ts => t.broken :: ts

/-- The directive at the beginning of the text that begins conditional compilation. -/
def ifDirective : Token := ⟨.poundDirective, "", "#if", 0, false⟩

/-- The condition behind that directive. -/
def debugFlag : Token := ⟨.identifier, " ", "DEBUG", 4, false⟩

/-- The directive that ends conditional compilation. -/
def endif (lead : String) (start : Nat) : Token := ⟨.poundDirective, lead, "#endif", start, true⟩

end Token

variable {ts : List Token}

/-- A line feed in front of a text goes to the gap of its first token. -/
theorem tokensFrom_newline {pos : Nat} {cs : List Char} {t : Token}
    (h : tokensFrom (pos + 1) cs = .ok (t :: ts)) : tokensFrom pos ('\n' :: cs) = .ok (t.broken :: ts) := by
  rw [tokensFrom_push (scanGap_newline pos cs), show pos + Text.byteSize ['\n'] = pos + 1 from rfl, h]
  rfl

/-- **The tokens of a text with the directive behind it.** -/
theorem tokensFrom_endif {pos : Nat} {cs : List Char} (h : tokensFrom pos cs = .ok ts) :
    ∃ lead start, tokensFrom pos (cs ++ "\n#endif".toList) = .ok (ts ++ [Token.endif lead start]) := by
  obtain ⟨front, -, hjoined⟩ := tokensFrom_joined h
  have hdirective (pos : Nat) : tokensFrom pos "#endif".toList =
      .ok [⟨.poundDirective, "", "#endif", pos, false⟩] :=
    tokensFrom_fixed pos [] '#' "endif".toList rfl rfl (tokensFrom_nil _)
  refine ⟨String.ofList front ++ "", pos + Text.byteSize cs + 1, ?_⟩
  rw [show "\n#endif".toList = '\n' :: "#endif".toList from rfl, hjoined, hdirective]
  rfl

/-- **The tokens of a text between directives.** -/
theorem tokenize_enclosed {source : String} (h : tokenize source = .ok ts) :
    ∃ lead start, tokenize ("#if DEBUG\n" ++ source ++ "\n#endif") =
      .ok (Token.ifDirective :: Token.debugFlag ::
        Token.breakLine (ts.map (Token.shiftUp 10) ++ [Token.endif lead start])) := by
  obtain ⟨lead, start, hend⟩ := tokensFrom_endif (tokensFrom_shiftUp h 10)
  refine ⟨lead, start, ?_⟩
  obtain ⟨t, us, hus⟩ := List.exists_cons_of_ne_nil (List.append_ne_nil_of_right_ne_nil
    (ts.map (Token.shiftUp 10)) (List.cons_ne_nil (Token.endif lead start) []))
  rw [hus] at hend ⊢
  have hbody := tokensFrom_newline (show tokensFrom (9 + 1) _ = _ from hend)
  have hcondition := tokensFrom_fixed 3 [' '] 'D' "EBUG".toList rfl rfl hbody
  have hdirective := tokensFrom_fixed 0 [] '#' "if".toList rfl rfl hcondition
  have htext : ("#if DEBUG\n" ++ source ++ "\n#endif").toList =
      "#if DEBUG\n".toList ++ (source.toList ++ "\n#endif".toList) := by
    rw [String.toList_append, String.toList_append, List.append_assoc]
  rw [tokenize, htext]
  exact hdirective

end SwiftOutline
