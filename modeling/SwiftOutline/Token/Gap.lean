import SwiftOutline.Text.Blank
import SwiftOutline.Token.Basic

/-!
# Gaps

What may stand between two tokens: blank characters, line comments and nested block comments. A gap
breaks the line if it holds a line feed, or a carriage return outside all comments.
-/

namespace SwiftOutline

/-- Where the scan of a gap stands: between comments, in a line comment, or in a block comment that
opened at byte `start` and has `depth` further comments open inside. -/
inductive GapMode where
  | between
  | line
  | block (start depth : Nat)
deriving DecidableEq, Repr

/-- A gap, whether it breaks the line, and the text that follows. -/
structure Gap where
  text : List Char
  newline : Bool
  rest : List Char
deriving DecidableEq, Repr

namespace Gap

/-- The gap with `cs` put in front of it; `newline` says whether `cs` breaks the line. -/
def push (cs : List Char) (newline : Bool) (g : Gap) : Gap :=
  { g with text := cs ++ g.text, newline := newline || g.newline }

@[simp] theorem push_text (cs : List Char) (newline : Bool) (g : Gap) :
    (g.push cs newline).text = cs ++ g.text := rfl

@[simp] theorem push_rest (cs : List Char) (newline : Bool) (g : Gap) :
    (g.push cs newline).rest = g.rest := rfl

end Gap

/-- The longest gap at the start of the text, which begins at byte `pos`. -/
def scanGap : GapMode → Nat → List Char → Except LexError Gap
  | .block start _, _, [] => .error (.unterminatedComment start)
  | _, _, [] => .ok ⟨[], false, []⟩
  | .between, pos, '/' :: '/' :: cs => (scanGap .line (pos + 2) cs).map (·.push ['/', '/'] false)
  | .between, pos, '/' :: '*' :: cs =>
    (scanGap (.block pos 0) (pos + 2) cs).map (·.push ['/', '*'] false)
  | .between, pos, c :: cs =>
    if Text.isBlank c then
      (scanGap .between (pos + c.utf8Size) cs).map (·.push [c] (c == '\n' || c == '\r'))
    else .ok ⟨[], false, c :: cs⟩
  | .line, pos, c :: cs =>
    if c = '\n' then (scanGap .between (pos + c.utf8Size) cs).map (·.push [c] true)
    else (scanGap .line (pos + c.utf8Size) cs).map (·.push [c] false)
  | .block start depth, pos, '/' :: '*' :: cs =>
    (scanGap (.block start (depth + 1)) (pos + 2) cs).map (·.push ['/', '*'] false)
  | .block _ 0, pos, '*' :: '/' :: cs =>
    (scanGap .between (pos + 2) cs).map (·.push ['*', '/'] false)
  | .block start (depth + 1), pos, '*' :: '/' :: cs =>
    (scanGap (.block start depth) (pos + 2) cs).map (·.push ['*', '/'] false)
  | .block start depth, pos, c :: cs =>
    (scanGap (.block start depth) (pos + c.utf8Size) cs).map (·.push [c] (c == '\n'))

/-- If mapping over an outcome gives a value, then the value comes from one of the outcome. -/
theorem ok_of_map_eq_ok {ε α β : Type} {x : Except ε α} {f : α → β} {b : β}
    (h : x.map f = .ok b) : ∃ a, x = .ok a ∧ f a = b := by
  cases x with
  | error e => simp [Except.map] at h
  | ok a => exact ⟨a, rfl, by simpa [Except.map] using h⟩

/-- A gap and the text after it make up the text that was scanned. -/
theorem scanGap_append {mode : GapMode} {pos : Nat} {cs : List Char} {g : Gap}
    (h : scanGap mode pos cs = .ok g) : g.text ++ g.rest = cs := by
  fun_induction scanGap mode pos cs generalizing g with
  | case1 => cases h
  | case2 => cases h; rfl
  | case6 => cases h; rfl
  | case3 _ _ ih | case4 _ _ ih | case5 _ _ _ _ _ _ ih | case7 _ _ ih | case8 _ _ _ _ ih
  | case9 _ _ _ _ ih | case10 _ _ _ ih | case11 _ _ _ _ ih | case12 _ _ _ _ _ _ _ _ ih =>
    obtain ⟨a, ha, rfl⟩ := ok_of_map_eq_ok h
    simp [ih ha]

/-- Scanning a gap leaves no more text than there was. -/
theorem length_rest_le_of_scanGap {mode : GapMode} {pos : Nat} {cs : List Char} {g : Gap}
    (h : scanGap mode pos cs = .ok g) : g.rest.length ≤ cs.length := by
  rw [← scanGap_append h]
  simp

end SwiftOutline
