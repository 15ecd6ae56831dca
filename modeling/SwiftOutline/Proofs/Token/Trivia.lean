import SwiftOutline.Proofs.Text.Bytes
import SwiftOutline.Token.Gap

/-!
# `Trivia` — what a gap is made of

A gap is read by a scan that remembers only where it stands. Here a gap is described by what it is: a
sequence of pieces, each a blank character, a line comment that runs up to a line feed or to the end of
the text, or a block comment in which comments are properly nested.
-/

namespace SwiftOutline

open List

/-! ## Pieces -/

/-- A piece of a gap: a blank character, a line comment without its line feed, or a block comment by what
stands between its marks. -/
inductive Piece where
  | blank (c : Char)
  | line (body : List Char)
  | block (body : List Char)
deriving DecidableEq, Repr

def Piece.text : Piece → List Char
  | blank c => [c]
  | line body => '/' :: '/' :: body
  | block body => '/' :: '*' :: (body ++ ['*', '/'])

/-- A mark that opens or closes a block comment stands at the start of the text. -/
def startsMark : List Char → Bool
  | '/' :: '*' :: _ => true
  | '*' :: '/' :: _ => true
  | _ => false

/-- What may stand between the marks of a block comment: whole block comments, and characters at which
no mark starts. -/
inductive Commented : List Char → Prop
  | nil : Commented []
  | char {c : Char} {cs : List Char} (hc : startsMark (c :: (cs ++ ['*', '/'])) = false)
      (hcs : Commented cs) : Commented (c :: cs)
  | nested {inner cs : List Char} (hinner : Commented inner) (hcs : Commented cs) :
      Commented ((Piece.block inner).text ++ cs)

/-- The piece may stand in front of this text. Only a line comment asks what comes after it. -/
def Piece.Fits (after : List Char) : Piece → Prop
  | blank c => Text.isBlank c = true
  | line body => '\n' ∉ body ∧ (after = [] ∨ after.head? = some '\n')
  | block body => Commented body

/-- The pieces may stand one after another in front of this text. -/
def Trivia (after : List Char) : List Piece → Prop
  | [] => True
  | p :: ps => p.Fits (ps.flatMap Piece.text ++ after) ∧ Trivia after ps

/-! ## The comment that a scan is in -/

/-- The text closes a block comment with `depth` further comments open inside, and ends there. -/
def Closes : Nat → List Char → Prop
  | 0, cs => ∃ body, Commented body ∧ cs = body ++ ['*', '/']
  | depth + 1, cs =>
    ∃ body rest, Commented body ∧ Closes depth rest ∧ cs = body ++ (['*', '/'] ++ rest)

/-- The text finishes what the scan is in, where `after` comes after it. -/
def Finishes (after : List Char) : GapMode → List Char → Prop
  | .between, cs => cs = []
  | .line, cs => '\n' ∉ cs ∧ (after = [] ∨ after.head? = some '\n')
  | .block _ depth, cs => Closes depth cs

variable {c : Char} {cs : List Char} {depth : Nat}

/-- Whether a mark starts shows in the first two characters. -/
theorem startsMark_append (h : cs ≠ []) (ds : List Char) :
    startsMark (c :: (cs ++ ds)) = startsMark (c :: cs) := by
  cases cs with
  | nil => exact absurd rfl h
  | cons d cs =>
    rw [cons_append]
    unfold startsMark
    split <;> split <;> simp_all

theorem Closes.ne_nil (h : Closes depth cs) : cs ≠ [] := by
  rintro rfl
  cases depth with
  | zero =>
    obtain ⟨body, -, heq⟩ := h
    simp at heq
  | succ depth =>
    obtain ⟨body, rest, -, -, heq⟩ := h
    simp at heq

/-- A character at which no mark starts goes into the innermost comment. -/
theorem Closes.char (h : Closes depth cs) (hc : startsMark (c :: cs) = false) : Closes depth (c :: cs) := by
  cases depth with
  | zero =>
    obtain ⟨body, hbody, rfl⟩ := h
    exact ⟨c :: body, hbody.char hc, rfl⟩
  | succ depth =>
    obtain ⟨body, rest, hbody, hrest, rfl⟩ := h
    rw [← append_assoc, startsMark_append (by simp)] at hc
    exact ⟨c :: body, rest, hbody.char hc, hrest, rfl⟩

/-- An opening mark puts the innermost comment, once it is closed, into the one around it. -/
theorem Closes.opening (h : Closes (depth + 1) cs) : Closes depth ('/' :: '*' :: cs) := by
  obtain ⟨body, rest, hbody, hrest, rfl⟩ := h
  cases depth with
  | zero =>
    obtain ⟨body', hbody', rfl⟩ := hrest
    exact ⟨_, hbody.nested hbody', by simp [Piece.text]⟩
  | succ depth =>
    obtain ⟨body', rest', hbody', hrest', rfl⟩ := hrest
    exact ⟨_, rest', hbody.nested hbody', hrest', by simp [Piece.text]⟩

/-- A closing mark leaves the comment around the innermost one to be closed. -/
theorem Closes.closing (h : Closes depth cs) : Closes (depth + 1) ('*' :: '/' :: cs) :=
  ⟨[], cs, .nil, h, rfl⟩

/-! ## Scanned gaps -/

/-- The gap finishes what the scan is in, goes on with pieces, and breaks the line if it holds a line feed,
or a carriage return that is a piece of its own. -/
def Gap.IsTrivia (mode : GapMode) (g : Gap) : Prop :=
  ∃ opened pieces, g.text = opened ++ pieces.flatMap Piece.text ∧
    Finishes (pieces.flatMap Piece.text ++ g.rest) mode opened ∧ Trivia g.rest pieces ∧
    (g.newline = true ↔ '\n' ∈ g.text ∨ .blank '\r' ∈ pieces)

/-- Characters without a line feed in front of a gap break no line. -/
theorem Gap.newline_push {g : Gap} {pieces : List Piece} (hcs : '\n' ∉ cs)
    (h : g.newline = true ↔ '\n' ∈ g.text ∨ .blank '\r' ∈ pieces) :
    (g.push cs false).newline = true ↔ '\n' ∈ (g.push cs false).text ∨ .blank '\r' ∈ pieces := by
  rw [Gap.push_text, mem_append, show (g.push cs false).newline = g.newline from rfl, h,
    or_iff_right hcs]

/-- Characters without a line feed go in front of what the scan is in. -/
theorem Gap.IsTrivia.push {mode mode' : GapMode} {g : Gap} (h : g.IsTrivia mode) (hcs : '\n' ∉ cs)
    (hmode : ∀ {after opened}, Finishes after mode opened → Finishes after mode' (cs ++ opened)) :
    (g.push cs false).IsTrivia mode' := by
  obtain ⟨opened, pieces, htext, hfin, htrivia, hnewline⟩ := h
  refine ⟨cs ++ opened, pieces, ?_, hmode hfin, htrivia, Gap.newline_push hcs hnewline⟩
  rw [Gap.push_text, htext, append_assoc]

/-- No mark starts where the scan of a block comment takes a single character. -/
theorem startsMark_eq_false (hopen : ∀ ds, c = '/' → cs = '*' :: ds → False)
    (hlast : ∀ ds, depth = 0 → c = '*' → cs = '/' :: ds → False)
    (hmore : ∀ d ds, depth = Nat.succ d → c = '*' → cs = '/' :: ds → False) :
    startsMark (c :: cs) = false := by
  unfold startsMark
  split
  · next ds heq =>
    cases heq
    exact (hopen ds rfl rfl).elim
  · next ds heq =>
    cases heq
    cases depth with
    | zero => exact (hlast ds rfl rfl rfl).elim
    | succ d => exact (hmore d ds rfl rfl rfl).elim
  · rfl

/-- **A scanned gap is trivia.** -/
theorem isTrivia_of_scanGap {mode : GapMode} {pos : Nat} {g : Gap}
    (h : scanGap mode pos cs = .ok g) : g.IsTrivia mode := by
  fun_induction scanGap mode pos cs generalizing g with
  | case1 => cases h
  | case2 mode _ hmode =>
    cases h
    refine ⟨[], [], rfl, ?_, trivial, by simp⟩
    cases mode with
    | between => rfl
    | line => exact ⟨not_mem_nil, .inl rfl⟩
    | block start depth => exact (hmode start depth rfl).elim
  | case3 pos cs ih =>
    obtain ⟨a, ha, rfl⟩ := ok_of_map_eq_ok h
    obtain ⟨opened, pieces, htext, hfin, htrivia, hnewline⟩ := ih ha
    refine ⟨[], .line opened :: pieces, ?_, rfl, ⟨hfin, htrivia⟩, ?_⟩
    · rw [Gap.push_text, htext, flatMap_cons]
      rfl
    · rw [Gap.newline_push (by decide) hnewline, mem_cons]
      simp
  | case4 pos cs ih =>
    obtain ⟨a, ha, rfl⟩ := ok_of_map_eq_ok h
    obtain ⟨opened, pieces, htext, ⟨body, hbody, rfl⟩, htrivia, hnewline⟩ := ih ha
    refine ⟨[], .block body :: pieces, ?_, rfl, ⟨hbody, htrivia⟩, ?_⟩
    · rw [Gap.push_text, htext, flatMap_cons]
      rfl
    · rw [Gap.newline_push (by decide) hnewline, mem_cons]
      simp
  | case5 pos c cs _ _ hblank ih =>
    obtain ⟨a, ha, rfl⟩ := ok_of_map_eq_ok h
    obtain ⟨opened, pieces, htext, rfl, htrivia, hnewline⟩ := ih ha
    refine ⟨[], .blank c :: pieces, ?_, rfl, ⟨hblank, htrivia⟩, ?_⟩
    · rw [Gap.push_text, htext, flatMap_cons]
      rfl
    · -- the character itself may break the line
      have hflag : (a.push [c] (c == '\n' || c == '\r')).newline = true ↔
          (c = '\n' ∨ c = '\r') ∨ a.newline = true := by
        simp [Gap.push]
      rw [hflag, hnewline, Gap.push_text, mem_append, mem_singleton, mem_cons,
        Piece.blank.injEq, eq_comm (a := '\n'), eq_comm (a := '\r')]
      exact or_or_or_comm
  | case6 =>
    cases h
    exact ⟨[], [], rfl, rfl, trivial, by simp⟩
  | case7 pos cs ih =>
    -- the line comment ends before its line feed, which is a piece of its own
    obtain ⟨a, ha, rfl⟩ := ok_of_map_eq_ok h
    obtain ⟨opened, pieces, htext, rfl, htrivia, hnewline⟩ := ih ha
    refine ⟨[], .blank '\n' :: pieces, ?_, ⟨not_mem_nil, .inr rfl⟩, ⟨rfl, htrivia⟩, ?_⟩
    · rw [Gap.push_text, htext, flatMap_cons]
      rfl
    · simp [Gap.push]
  | case8 pos c cs hc ih =>
    obtain ⟨a, ha, rfl⟩ := ok_of_map_eq_ok h
    have hnot : '\n' ∉ [c] := fun hmem => hc (mem_singleton.mp hmem).symm
    refine (ih ha).push hnot ?_
    rintro after opened ⟨hbody, hafter⟩
    exact ⟨fun hmem => (mem_append.mp hmem).elim hnot hbody, hafter⟩
  | case9 start depth pos cs ih =>
    obtain ⟨a, ha, rfl⟩ := ok_of_map_eq_ok h
    exact (ih ha).push (by decide) Closes.opening
  | case10 start pos cs ih =>
    obtain ⟨a, ha, rfl⟩ := ok_of_map_eq_ok h
    refine (ih ha).push (by decide) ?_
    rintro after opened rfl
    exact ⟨[], .nil, rfl⟩
  | case11 start depth pos cs ih =>
    obtain ⟨a, ha, rfl⟩ := ok_of_map_eq_ok h
    exact (ih ha).push (by decide) Closes.closing
  | case12 start depth pos c cs hopen hlast hmore ih =>
    obtain ⟨a, ha, rfl⟩ := ok_of_map_eq_ok h
    obtain ⟨opened, pieces, htext, hcloses, htrivia, hnewline⟩ := ih ha
    have hmark : startsMark (c :: opened) = false := by
      have hcs := startsMark_eq_false hopen hlast hmore
      rw [← scanGap_append ha, htext, append_assoc, startsMark_append hcloses.ne_nil] at hcs
      exact hcs
    refine ⟨c :: opened, pieces, ?_, hcloses.char hmark, htrivia, ?_⟩
    · rw [Gap.push_text, htext]
      rfl
    · -- a carriage return inside a comment breaks no line
      have hflag : (a.push [c] (c == '\n')).newline = true ↔ c = '\n' ∨ a.newline = true := by
        simp [Gap.push]
      rw [hflag, hnewline, Gap.push_text, mem_append, mem_singleton, eq_comm (a := '\n')]
      exact or_assoc.symm

end SwiftOutline
