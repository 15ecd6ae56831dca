import Mathlib.Data.List.Forall2
import SwiftOutline.Proofs.Token.Slice

/-!
# `Window` — the text between two tokens

A window of a source is the text from the start of one of its tokens to the end of another. Its bytes are
known from the gaps and tokens in front of it, so it is a slice of the source, and it has the tokens that
the source has there.
-/

namespace SwiftOutline

open Token List

namespace Token

/-- `u` is the token `t`, counted from byte `base` on. -/
structure Shifted (base : Nat) (t u : Token) : Prop where
  kind : u.kind = t.kind
  text : u.text = t.text
  start : u.start + base = t.start
  stop : u.stop + base = t.stop

theorem layout_append (ts us : List Token) : layout (ts ++ us) = layout ts ++ layout us := by
  simp [layout]

theorem shifted_rebase {base : Nat} {t : Token} (h : base ≤ t.start) : Shifted base t (t.rebase base) where
  kind := rfl
  text := rfl
  start := by simp only [rebase]; omega
  stop := by simp only [stop, rebase]; omega

end Token

/-! ## Offsets -/

variable {before after : List Token} {t : Token}

/-- A token starts behind all that stands in front of it and behind its own gap. -/
theorem start_eq_byteSize_layout {pos : Nat} {cs : List Char}
    (h : tokensFrom pos cs = .ok (before ++ t :: after)) :
    t.start = pos + Text.byteSize (layout before ++ t.lead.toList) := by
  induction before generalizing pos cs with
  | nil =>
    obtain ⟨gap, c, rest, lexeme, -, -, -, -, rfl⟩ := tokensFrom_cons h
    simp [layout]
  | cons u before ih =>
    obtain ⟨gap, c, rest, lexeme, -, -, -, htail, rfl⟩ := tokensFrom_cons h
    rw [ih htail, layout_cons]
    simp only [String.toList_ofList, Text.byteSize_append]
    omega

/-- A token ends with its own text. -/
theorem stop_eq_byteSize_layout {pos : Nat} {cs : List Char}
    (h : tokensFrom pos cs = .ok (before ++ t :: after)) :
    t.stop = pos + Text.byteSize (layout (before ++ [t])) := by
  rw [stop, start_eq_byteSize_layout h, ← Text.byteSize_toList, layout_append, layout_cons]
  simp only [layout, flatMap_nil, append_nil, Text.byteSize_append]
  omega

/-! ## Windows -/

/-- **A window is a slice.** From the start of its first token to the end of its last one, the source
    holds the texts of the window's tokens with the gaps between them. -/
theorem slice?_window {source : String} {ts : List Token} {last : Token}
    (h : tokenize source = .ok (before ++ (t :: ts ++ after))) (hlast : (t :: ts).getLast? = some last) :
    Text.slice? source.toList ⟨t.start, last.stop⟩ = some (joined (t :: ts)).toList := by
  obtain ⟨front, hfront⟩ : ∃ front, t :: ts = front ++ [last] := List.getLast?_eq_some_iff.mp hlast
  have hstart : t.start = 0 + Text.byteSize (layout before ++ t.lead.toList) :=
    start_eq_byteSize_layout h
  have hstop : last.stop = 0 + Text.byteSize (layout ((before ++ front) ++ [last])) := by
    rw [hfront] at h
    have hsplit : tokensFrom 0 source.toList = .ok ((before ++ front) ++ last :: after) := by
      simpa [tokenize] using h
    exact stop_eq_byteSize_layout hsplit
  -- up to the end of the window the source is the gaps and texts of its tokens
  obtain ⟨back, hback⟩ : layout (before ++ (t :: ts)) <+: source.toList := by
    have hsplit : tokensFrom 0 source.toList = .ok ((before ++ (t :: ts)) ++ after) := by
      simpa [tokenize] using h
    exact layout_of_tokensFrom hsplit
  have hlayout : layout (before ++ (t :: ts)) =
      (layout before ++ t.lead.toList) ++ (joined (t :: ts)).toList := by
    rw [layout_append, layout_cons, toList_joined, append_assoc]
  have hend : last.stop = Text.byteSize (layout before ++ t.lead.toList) +
      Text.byteSize (joined (t :: ts)).toList := by
    rw [hstop, Nat.zero_add, append_assoc, ← hfront, hlayout, Text.byteSize_append]
  rw [hstart, hend, Nat.zero_add, ← hback, hlayout, append_assoc]
  exact Text.slice?_append _ _ _

/-- The tokens of a window begin no earlier than the first of them. -/
theorem start_le_of_window {source : String} {ts : List Token}
    (h : tokenize source = .ok (before ++ (t :: ts ++ after))) : ∀ u ∈ ts, t.start ≤ u.start := by
  have hlaid := laid_of_tokensFrom h
  have hwindow : (t :: (ts ++ after)).Pairwise fun a b => a.stop ≤ b.start :=
    hlaid.pairwise.sublist (sublist_append_right before _)
  intro u hu
  have hle : t.start + t.text.utf8ByteSize ≤ u.start :=
    rel_of_pairwise_cons hwindow (mem_append_left after hu)
  omega

/-- The window from the `i`th to the `j`th token, with what stands before it and behind it. -/
theorem exists_window {tokens : List Token} {i j : Nat} (hij : i ≤ j) {first last : Token}
    (hfirst : tokens[i]? = some first) (hlast : tokens[j]? = some last) :
    ∃ ts, (tokens.take (j + 1)).drop i = first :: ts ∧ (first :: ts).getLast? = some last ∧
      tokens = tokens.take i ++ (first :: ts ++ tokens.drop (j + 1)) := by
  have hi : (tokens.take (j + 1))[i]? = some first := by
    rw [List.getElem?_take_of_lt (by omega), hfirst]
  have hsplit : (tokens.take (j + 1)).drop i = first :: (tokens.take (j + 1)).drop (i + 1) := by
    obtain ⟨hlt, heq⟩ := List.getElem?_eq_some_iff.mp hi
    rw [drop_eq_getElem_cons hlt, heq]
  refine ⟨(tokens.take (j + 1)).drop (i + 1), hsplit, ?_, ?_⟩
  · have hj : j < tokens.length := (List.getElem?_eq_some_iff.mp hlast).1
    rw [← hsplit, List.getLast?_drop, if_neg (by simp; omega), List.getLast?_take]
    simp [hlast]
  · have htake : tokens.take i = (tokens.take (j + 1)).take i := by
      rw [take_take, Nat.min_eq_left (by omega)]
    rw [← hsplit, ← append_assoc, htake, take_append_drop, take_append_drop]

/-- **Tokens are stable under slicing at their ends.** The text from the `i`th token of a source to the
    `j`th can be split into tokens, and these are the tokens from `i` to `j`, counted from where the text
    begins. They begin lines where they did, except that the first one begins none. -/
theorem tokenize_window {source : String} {tokens : List Token} (h : tokenize source = .ok tokens) {i j : Nat}
    (hij : i ≤ j) {first last : Token} (hfirst : tokens[i]? = some first) (hlast : tokens[j]? = some last) :
    ∃ part us, Text.slice? source.toList ⟨first.start, last.stop⟩ = some part ∧
      tokenize (String.ofList part) = .ok us ∧
      List.Forall₂ (Token.Shifted first.start) ((tokens.take (j + 1)).drop i) us ∧
      us.map Token.newlineBefore = (((tokens.take (j + 1)).drop i).map Token.newlineBefore).set 0 false := by
  obtain ⟨ts, hwindow, hend, hsplit⟩ := exists_window hij hfirst hlast
  rw [hsplit] at h
  refine ⟨(Token.joined (first :: ts)).toList, (first.leading :: ts).map (Token.rebase first.start),
    slice?_window h hend, ?_, ?_, ?_⟩
  · rw [String.ofList_toList, tokenize_joined h]
  · rw [hwindow, List.map_cons, forall₂_cons]
    constructor
    · exact ⟨rfl, rfl, by simp [Token.rebase, Token.leading],
        by simp only [Token.stop, Token.rebase, Token.leading]; omega⟩
    · rw [forall₂_map_right_iff, forall₂_same]
      intro u hu
      exact Token.shifted_rebase (start_le_of_window h u hu)
  · rw [hwindow]
    simp [Token.leading, Token.rebase, Function.comp_def]

/-- The window from a number to a raw string, both of which look past their last character, has a
comment, a line break and an ellipsis inside. -/
theorem tokenize_window_lookahead :
    ∃ part us, Text.slice? "f(1.\n/*a*/...\n#\"b\"#)".toList ⟨2, 19⟩ = some part ∧
      tokenize (String.ofList part) = .ok us ∧
      List.Forall₂ (Token.Shifted 2)
        [⟨.integerLiteral, "", "1", 2, false⟩, ⟨.punct, "", ".", 3, false⟩,
          ⟨.ellipsis, "\n/*a*/", "...", 10, true⟩, ⟨.stringLiteral, "\n", "#\"b\"#", 14, true⟩] us ∧
      us.map Token.newlineBefore = [false, false, true, true] := by
  have h : tokenize "f(1.\n/*a*/...\n#\"b\"#)" =
      .ok [⟨.identifier, "", "f", 0, false⟩, ⟨.punct, "", "(", 1, false⟩,
        ⟨.integerLiteral, "", "1", 2, false⟩, ⟨.punct, "", ".", 3, false⟩,
        ⟨.ellipsis, "\n/*a*/", "...", 10, true⟩, ⟨.stringLiteral, "\n", "#\"b\"#", 14, true⟩,
        ⟨.punct, "", ")", 19, false⟩] :=
    eq_ok_of_toOption (by decide +kernel)
  exact tokenize_window h (i := 2) (j := 5) (by decide) rfl rfl

end SwiftOutline
