import SwiftOutline.Proofs.Token.Trivia
import SwiftOutline.Token.Lexer

/-!
# `Partition` — tokens and trivia make up the source

The tokens of a text lie one behind the other with nothing but trivia before, between and after them. Every
offset of a token falls between two characters, so tokens and gaps are slices of the text.
-/

namespace SwiftOutline

open Text

/-- **Induction over the tokens of a text.** The text ends after a gap, or a gap and a token come first. -/
theorem tokensFrom_induction {motive : Nat → List Char → List Token → Prop}
    (done : ∀ pos cs gap, scanGap .between pos cs = .ok gap → gap.rest = [] → motive pos cs [])
    (token : ∀ pos cs gap c rest lexeme tail, scanGap .between pos cs = .ok gap → gap.rest = c :: rest →
      scanLexeme (pos + byteSize gap.text) c rest = .ok lexeme →
      tokensFrom (pos + byteSize gap.text + byteSize lexeme.text) lexeme.rest = .ok tail →
      motive (pos + byteSize gap.text + byteSize lexeme.text) lexeme.rest tail →
      motive pos cs
        (⟨lexeme.kind, String.ofList gap.text, String.ofList lexeme.text, pos + byteSize gap.text,
          gap.newline⟩ :: tail))
    {pos : Nat} {cs : List Char} {tokens : List Token} (h : tokensFrom pos cs = .ok tokens) :
    motive pos cs tokens := by
  induction hn : cs.length using Nat.strongRecOn generalizing pos cs tokens with
  | ind n ih =>
    rw [tokensFrom] at h
    split at h
    · cases h
    · next gap hgap =>
      split at h
      · next hrest =>
        cases h
        exact done pos cs gap hgap hrest
      · next c rest hrest =>
        simp only at h
        split at h
        · cases h
        · next lexeme hlexeme =>
          obtain ⟨tail, htail, rfl⟩ := ok_of_map_eq_ok h
          have hgaplen := length_rest_le_of_scanGap hgap
          have hlexlen := length_rest_lt_of_scanLexeme hlexeme
          rw [hrest] at hgaplen
          exact token pos cs gap c rest lexeme tail hgap hrest hlexeme htail
            (ih lexeme.rest.length (by omega) htail rfl)

/-! ## Laid out text -/

/-- The text, which begins at byte `pos`, is laid out as these tokens with trivia before, between and after
them. -/
inductive Laid : Nat → List Char → List Token → Prop
  | done {pos : Nat} {pieces : List Piece} (htrivia : Trivia [] pieces) :
      Laid pos (pieces.flatMap Piece.text) []
  | token {pos : Nat} {pieces : List Piece} {t : Token} {rest : List Char} {tokens : List Token}
      (htrivia : Trivia (t.text.toList ++ rest) pieces)
      (hnewline : t.newlineBefore = true ↔
        '\n' ∈ pieces.flatMap Piece.text ∨ .blank '\r' ∈ pieces)
      (hstart : t.start = pos + byteSize (pieces.flatMap Piece.text))
      (htext : t.text.toList ≠ []) (hrest : Laid t.stop rest tokens) :
      Laid pos (pieces.flatMap Piece.text ++ (t.text.toList ++ rest)) (t :: tokens)

theorem laid_of_tokensFrom {pos : Nat} {cs : List Char} {tokens : List Token}
    (h : tokensFrom pos cs = .ok tokens) : Laid pos cs tokens := by
  refine tokensFrom_induction ?_ ?_ h
  · intro pos cs gap hgap hrest
    obtain ⟨opened, pieces, htext, rfl, htrivia, -⟩ := isTrivia_of_scanGap hgap
    have hcs := scanGap_append hgap
    rw [hrest, List.append_nil, htext, List.nil_append] at hcs
    rw [hrest] at htrivia
    rw [← hcs]
    exact .done htrivia
  · intro pos cs gap c rest lexeme tail hgap hrest hlexeme _ ih
    obtain ⟨opened, pieces, htext, rfl, htrivia, hnewline⟩ := isTrivia_of_scanGap hgap
    rw [List.nil_append] at htext
    have hsplit : gap.rest = lexeme.text ++ lexeme.rest := by
      rw [hrest, scanLexeme_append hlexeme]
    have hcs : cs = pieces.flatMap Piece.text ++ (lexeme.text ++ lexeme.rest) := by
      rw [← scanGap_append hgap, htext, hsplit]
    have hlaid := @Laid.token pos pieces ⟨lexeme.kind, String.ofList gap.text,
      String.ofList lexeme.text, pos + byteSize gap.text, gap.newline⟩ lexeme.rest tail
    simp only [String.toList_ofList] at hlaid
    rw [hcs]
    refine hlaid ?_ ?_ ?_ ?_ ?_
    · rw [← hsplit]
      exact htrivia
    · rw [hnewline, htext]
    · rw [htext]
    · exact scanLexeme_text_ne_nil hlexeme
    · rw [Token.stop, byteSize_ofList]
      exact ih

/-! ## Where tokens and gaps are -/

/-- The offset at which the gap in front of the `i`th token begins, in a text that begins at `pos`. -/
def gapStart (pos : Nat) (tokens : List Token) : Nat → Nat
  | 0 => pos
  | i + 1 => (tokens[i]?.map Token.stop).getD pos

/-- The offset at which the gap in front of the `i`th token ends, in a text that ends at `stop`. -/
def gapStop (stop : Nat) (tokens : List Token) (i : Nat) : Nat := (tokens[i]?.map Token.start).getD stop

theorem gapStart_cons (pos : Nat) (t : Token) (tokens : List Token) (i : Nat) :
    gapStart pos (t :: tokens) (i + 1) = gapStart t.stop tokens i ∨ tokens.length < i := by
  cases i with
  | zero => exact .inl rfl
  | succ i =>
    by_cases hi : i < tokens.length
    · left
      simp only [gapStart, List.getElem?_cons_succ, List.getElem?_eq_getElem hi, Option.map_some,
        Option.getD_some]
    · right
      omega

namespace Laid

variable {pos : Nat} {cs : List Char} {tokens : List Token}

/-- Tokens have text, lie inside the text that they are tokens of, and are slices of it. -/
theorem token_slice (h : Laid pos cs tokens) {t : Token} (ht : t ∈ tokens) :
    pos ≤ t.start ∧ t.start < t.stop ∧ t.stop ≤ pos + byteSize cs ∧
      ∃ before after, cs = before ++ (t.text.toList ++ after) ∧ t.start = pos + byteSize before := by
  induction h with
  | done => exact absurd ht List.not_mem_nil
  | @token pos pieces u rest tokens htrivia hnewline hstart htext hrest ih =>
    have hu : u.stop = u.start + byteSize u.text.toList := by
      rw [Token.stop, byteSize_toList]
    have hpos := byteSize_pos htext
    simp only [byteSize_append]
    rcases List.mem_cons.mp ht with rfl | ht
    · refine ⟨by omega, by omega, by omega, _, rest, rfl, hstart⟩
    · -- the token is in the rest, which lies behind the first one
      obtain ⟨hle, hlt, hstop, before, after, rfl, hbefore⟩ := ih ht
      refine ⟨by omega, hlt, ?_, pieces.flatMap Piece.text ++ (u.text.toList ++ before), after, ?_, ?_⟩
      · simp only [byteSize_append] at hstop ⊢
        omega
      · simp only [List.append_assoc]
      · simp only [byteSize_append]
        omega

/-- Tokens stand in order, none inside another. -/
theorem pairwise (h : Laid pos cs tokens) : tokens.Pairwise fun a b => a.stop ≤ b.start := by
  induction h with
  | done => exact List.Pairwise.nil
  | token htrivia hnewline hstart htext hrest ih =>
    refine List.Pairwise.cons ?_ ih
    intro b hb
    exact (hrest.token_slice hb).1

/-- Every gap is a slice that holds nothing but trivia. -/
theorem gap_slice (h : Laid pos cs tokens) {i : Nat} (hi : i ≤ tokens.length) :
    ∃ before after pieces, cs = before ++ (pieces.flatMap Piece.text ++ after) ∧
      gapStart pos tokens i = pos + byteSize before ∧
      gapStop (pos + byteSize cs) tokens i =
        pos + byteSize before + byteSize (pieces.flatMap Piece.text) ∧
      Trivia after pieces ∧
      ∀ t, tokens[i]? = some t →
        (t.newlineBefore = true ↔ '\n' ∈ pieces.flatMap Piece.text ∨ .blank '\r' ∈ pieces) := by
  induction h generalizing i with
  | @done pos pieces htrivia =>
    have hzero : i = 0 := Nat.le_zero.mp hi
    subst hzero
    exact ⟨[], [], pieces, by simp, rfl, rfl, htrivia, fun t ht => by cases ht⟩
  | @token pos pieces u rest tokens htrivia hnewline hstart htext hrest ih =>
    cases i with
    | zero =>
      refine ⟨[], _, pieces, rfl, rfl, hstart, htrivia, ?_⟩
      intro t ht
      cases ht
      exact hnewline
    | succ i =>
      have hi' : i ≤ tokens.length := Nat.le_of_succ_le_succ hi
      obtain ⟨before, after, pieces', rfl, hbefore, hafter, htrivia', hnewline'⟩ := ih hi'
      have hu : u.stop = u.start + byteSize u.text.toList := by
        rw [Token.stop, byteSize_toList]
      have hgap : gapStart pos (u :: tokens) (i + 1) = gapStart u.stop tokens i := by
        rcases gapStart_cons pos u tokens i with heq | hlt
        · exact heq
        · omega
      refine ⟨pieces.flatMap Piece.text ++ (u.text.toList ++ before), after, pieces', ?_, ?_, ?_, htrivia',
        hnewline'⟩
      · simp only [List.append_assoc]
      · rw [hgap, hbefore]
        simp only [byteSize_append]
        omega
      · have hstop : gapStop (pos + byteSize (pieces.flatMap Piece.text ++ (u.text.toList ++
            (before ++ (pieces'.flatMap Piece.text ++ after))))) (u :: tokens) (i + 1) =
            gapStop (u.stop + byteSize (before ++ (pieces'.flatMap Piece.text ++ after))) tokens
              i := by
          unfold gapStop
          rw [List.getElem?_cons_succ]
          congr 1
          simp only [byteSize_append]
          omega
        rw [hstop, hafter]
        simp only [byteSize_append]
        omega

end Laid

/-- The text is made up of the tokens and of trivia before, between and after them. -/
structure Partitions (source : String) (tokens : List Token) : Prop where
  /-- Tokens are not empty and end inside the text. -/
  bounds : ∀ t ∈ tokens, t.start < t.stop ∧ t.stop ≤ source.utf8ByteSize
  /-- The ends of a token fall between characters, and its text is what stands there. -/
  slices : ∀ t ∈ tokens, slice? source.toList t.span = some t.text.toList
  /-- Each token ends before the next begins. -/
  ordered : tokens.Pairwise fun a b => a.stop ≤ b.start
  /-- What is left is trivia, and a token begins a line if the trivia in front of it holds a line feed, or
  a carriage return outside all comments. -/
  gaps : ∀ i ≤ tokens.length, ∃ pieces after,
    slice? source.toList ⟨gapStart 0 tokens i, gapStop source.utf8ByteSize tokens i⟩ =
      some (pieces.flatMap Piece.text) ∧
    dropBytes? source.toList (gapStop source.utf8ByteSize tokens i) = some after ∧
    Trivia after pieces ∧
    ∀ t, tokens[i]? = some t →
      (t.newlineBefore = true ↔ '\n' ∈ pieces.flatMap Piece.text ∨ .blank '\r' ∈ pieces)

/-- **Tokens and trivia partition the source**, whenever it can be split into tokens. -/
theorem tokens_partition {source : String} {tokens : List Token} (h : tokenize source = .ok tokens) :
    Partitions source tokens := by
  have hlaid := laid_of_tokensFrom h
  refine ⟨?_, ?_, hlaid.pairwise, ?_⟩
  · intro t ht
    obtain ⟨-, hlt, hstop, -⟩ := hlaid.token_slice ht
    rw [Nat.zero_add, Text.byteSize_toList] at hstop
    exact ⟨hlt, hstop⟩
  · intro t ht
    obtain ⟨-, -, -, before, after, hcs, hstart⟩ := hlaid.token_slice ht
    rw [Token.span, Token.stop, hstart, Nat.zero_add, ← Text.byteSize_toList t.text, hcs]
    exact Text.slice?_append before t.text.toList after
  · intro i hi
    obtain ⟨before, after, pieces, hcs, hstart, hstop, htrivia, hnewline⟩ := hlaid.gap_slice hi
    rw [Nat.zero_add, Text.byteSize_toList] at hstop
    rw [Nat.zero_add] at hstart hstop
    refine ⟨pieces, after, ?_, ?_, htrivia, hnewline⟩
    · rw [hstart, hstop, hcs]
      exact Text.slice?_append before _ after
    · rw [hstop, hcs, ← Text.byteSize_append, ← List.append_assoc]
      exact Text.dropBytes?_append _ after

theorem eq_ok_of_toOption {ε α : Type} {x : Except ε α} {a : α} (h : x.toOption = some a) :
    x = .ok a := by
  cases x with
  | error e => cases h
  | ok b =>
    cases h
    rfl

/-- What is computed is tested by computing it. -/
theorem exists_ok_of_test {ε α : Type} {x : Except ε α} {P : α → Prop} [DecidablePred P]
    (h : (x.toOption.any fun a => P a) = true) : ∃ a, x = .ok a ∧ P a := by
  obtain ⟨a, ha, hP⟩ := (Option.any_eq_true _ _).mp h
  exact ⟨a, eq_ok_of_toOption ha, of_decide_eq_true hP⟩

/-- A value is named, and what holds of everything with this name holds of it. -/
theorem exists_eq_and {α : Type} {a : α} {P : α → Prop} (h : ∀ x, x = a → P x) : ∃ x, x = a ∧ P x :=
  ⟨a, rfl, h a rfl⟩

/-- Only the last of three gaps breaks the line: the carriage return of the second is in a comment. -/
theorem tokens_partition_comments : ∃ source tokens, source = " a/*\r/**/*/b//\r\nc" ∧
    tokens = [⟨.identifier, " ", "a", 1, false⟩, ⟨.identifier, "/*\r/**/*/", "b", 11, false⟩,
      ⟨.identifier, "//\r\n", "c", 16, true⟩] ∧ tokenize source = .ok tokens ∧ Partitions source tokens := by
  refine ⟨_, _, rfl, rfl, ?h, tokens_partition ?h⟩
  exact eq_ok_of_toOption (by decide +kernel)

end SwiftOutline
