import Mathlib.Data.List.DropRight
import SwiftOutline.Proofs.Text.Bytes
import SwiftOutline.Text.Position

/-!
# `Position` — lines and columns as counts

The line of an offset is told by the line breaks in front of it, its column by the characters since the
last of them. A position can be looked up in two ways, by reading the text from its start and by the
table of the offsets at which lines start. At an offset between two characters both give these counts, as
far as 32 bits hold them.
-/

namespace SwiftOutline

open List

namespace Text

/-- The offset falls between two characters, or at an end of the text. -/
def IsBoundary (cs : List Char) (offset : Nat) : Prop := ∃ a b, cs = a ++ b ∧ byteSize a = offset

variable {cs a b : List Char} {n : Nat}

theorem IsBoundary.le {offset : Nat} (h : IsBoundary cs offset) : offset ≤ byteSize cs := by
  obtain ⟨a, b, rfl, rfl⟩ := h
  rw [byteSize_append]
  exact Nat.le_add_right _ _

/-! ## Counting -/

/-- The characters since the last line break. -/
def lastLine (cs : List Char) : List Char := cs.rtakeWhile (· != '\n')

theorem ordinal_lt (n : Nat) : ordinal n < UInt32.size := Nat.mod_lt _ (by decide)

theorem ordinal_of_lt (h : n < UInt32.size - 1) : ordinal n = n + 1 := Nat.mod_eq_of_lt (by omega)

theorem ordinal_ordinal (n : Nat) : ordinal (ordinal n) = ordinal (n + 1) := Nat.mod_add_mod _ _ _

/-- Line and column just behind the characters of a text that starts with them. -/
def positionAfter (cs : List Char) : Nat × Nat := (ordinal (cs.count '\n'), ordinal (lastLine cs).length)

theorem lastLine_concat (cs : List Char) (c : Char) :
    lastLine (cs ++ [c]) = if c = '\n' then [] else lastLine cs ++ [c] := by
  unfold lastLine
  rw [rtakeWhile_concat]
  by_cases hc : c = '\n' <;> simp [hc]

/-- What stands in front of a line break does not count. -/
theorem lastLine_append_newline (a b : List Char) : lastLine (a ++ '\n' :: b) = lastLine b := by
  induction b using List.reverseRecOn with
  | nil => rw [lastLine_concat, if_pos rfl]; rfl
  | append_singleton b c ih =>
    rw [← cons_append, ← append_assoc, lastLine_concat, lastLine_concat, ih]

theorem exists_append_lastLine (cs : List Char) : ∃ front, cs = front ++ lastLine cs := by
  obtain ⟨front, hfront⟩ := rtakeWhile_suffix (· != '\n') cs
  exact ⟨front, hfront.symm⟩

/-- A short text has few lines, all of them short: 32 bits hold both counts. -/
theorem positionAfter_of_short (h : cs.length < UInt32.size - 1) :
    positionAfter cs = (cs.count '\n' + 1, (lastLine cs).length + 1) := by
  have hlast : (lastLine cs).length ≤ cs.length := (rtakeWhile_suffix (· != '\n') cs).length_le
  have hcount := count_le_length (a := '\n') (l := cs)
  rw [positionAfter, ordinal_of_lt (Nat.lt_of_le_of_lt hcount h), ordinal_of_lt (Nat.lt_of_le_of_lt hlast h)]

/-! ## Reading from the start -/

theorem advance_zero (cs : List Char) (line column : Nat) : advance cs 0 line column = (line, column) := by
  cases cs <;> rfl

theorem advance_cons (c : Char) (cs : List Char) (n line column : Nat) :
    advance (c :: cs) (c.utf8Size + n) line column =
      if c = '\n' then advance cs n (ordinal line) 1 else advance cs n line (ordinal column) := by
  have hc := c.utf8Size_pos
  rw [advance, if_neg (by omega), Nat.add_sub_cancel_left]

theorem advance_append (a b : List Char) (n line column : Nat) :
    advance (a ++ b) (byteSize a + n) line column =
      advance b n (advance a (byteSize a) line column).1 (advance a (byteSize a) line column).2 := by
  induction a generalizing line column with
  | nil => simp [advance]
  | cons c a ih =>
    rw [cons_append, byteSize_cons, Nat.add_assoc, advance_cons, advance_cons]
    by_cases hbreak : c = '\n'
    · rw [if_pos hbreak, if_pos hbreak, ih]
    · rw [if_neg hbreak, if_neg hbreak, ih]

theorem advance_byteSize (cs : List Char) : advance cs (byteSize cs) 1 1 = positionAfter cs := by
  induction cs using List.reverseRecOn with
  | nil => rfl
  | append_singleton cs c ih =>
    rw [byteSize_append, advance_append, ih, byteSize_cons, advance_cons, advance, advance,
      positionAfter, positionAfter, lastLine_concat, count_append]
    by_cases hbreak : c = '\n' <;> simp [hbreak, ordinal_ordinal, show ordinal 0 = 1 from rfl]

/-- **Reading from the start counts** the line breaks, and the characters since the last one. -/
theorem positionAt_append {source : String} (h : source.toList = a ++ b) :
    positionAt source (byteSize a) = positionAfter a := by
  have happend := advance_append a b 0 1 1
  rw [advance_zero, Nat.add_zero, advance_byteSize] at happend
  rw [positionAt, h]
  exact happend

/-! ## The table of line starts -/

theorem breaksFrom_append (start : Nat) (a b : List Char) :
    breaksFrom start (a ++ b) = breaksFrom start a ++ breaksFrom (start + byteSize a) b := by
  induction a generalizing start with
  | nil => rfl
  | cons c a ih =>
    rw [cons_append, breaksFrom, breaksFrom, byteSize_cons, ← Nat.add_assoc, ih]
    by_cases hbreak : c = '\n' <;> simp [hbreak]

/-- A line that is not the first starts behind a line break. -/
theorem mem_breaksFrom {start : Nat} (h : n ∈ breaksFrom start cs) :
    start < n ∧ n ≤ start + byteSize cs := by
  induction cs generalizing start with
  | nil => cases h
  | cons c cs ih =>
    have hc := c.utf8Size_pos
    rw [breaksFrom] at h
    rw [byteSize_cons]
    split at h
    · rcases mem_cons.mp h with rfl | h
      · omega
      · have := ih h
        omega
    · have := ih h
      omega

theorem length_breaksFrom (start : Nat) (cs : List Char) : (breaksFrom start cs).length = cs.count '\n' := by
  induction cs generalizing start with
  | nil => rfl
  | cons c cs ih =>
    rw [breaksFrom, count_cons]
    by_cases hbreak : c = '\n' <;> simp [hbreak, ih]

/-- The lines that start at or before the end of `a` are those of `a`. -/
theorem filter_starts (a b : List Char) :
    (0 :: breaksFrom 0 (a ++ b)).filter (· ≤ byteSize a) = 0 :: breaksFrom 0 a := by
  have hfirst : (breaksFrom 0 a).filter (· ≤ byteSize a) = breaksFrom 0 a := by
    rw [filter_eq_self]
    intro n hn
    have := mem_breaksFrom hn
    simp only [decide_eq_true_eq]
    omega
  have hsecond : (breaksFrom (byteSize a) b).filter (· ≤ byteSize a) = [] := by
    rw [filter_eq_nil_iff]
    intro n hn
    have := mem_breaksFrom hn
    simp only [decide_eq_true_eq]
    omega
  rw [breaksFrom_append, Nat.zero_add, filter_cons_of_pos (by simp), filter_append, hfirst, hsecond,
    append_nil]

/-- The last line starts where the characters since the last line break do. -/
theorem getLast?_starts (cs : List Char) :
    ((0 :: breaksFrom 0 cs).getLast?.getD 0) + byteSize (lastLine cs) = byteSize cs := by
  induction cs using List.reverseRecOn with
  | nil => rfl
  | append_singleton cs c ih =>
    rw [breaksFrom_append, lastLine_concat, byteSize_append, Nat.zero_add, ← cons_append,
      breaksFrom, breaksFrom]
    by_cases hbreak : c = '\n'
    · rw [if_pos hbreak, if_pos hbreak, List.getLast?_concat]
      rfl
    · rw [if_neg hbreak, if_neg hbreak, append_nil, byteSize_append, ← Nat.add_assoc, ih]

/-! ## Later positions -/

theorem lastLine_append (h : '\n' ∉ b) : lastLine (a ++ b) = lastLine a ++ b := by
  induction b using List.reverseRecOn with
  | nil => rw [append_nil, append_nil]
  | append_singleton b c ih =>
    rw [mem_append, not_or, mem_singleton] at h
    rw [← append_assoc, lastLine_concat, if_neg (Ne.symm h.2), ih h.1, append_assoc]

/-- **Each character moves the position on**: a line break to the next line, any other one to the next
column. -/
theorem positionAfter_append (hshort : (a ++ b).length < UInt32.size - 1) (h : b ≠ []) :
    (positionAfter a).1 < (positionAfter (a ++ b)).1 ∨
      (positionAfter a).1 = (positionAfter (a ++ b)).1 ∧
        (positionAfter a).2 < (positionAfter (a ++ b)).2 := by
  have hfirst : a.length < UInt32.size - 1 := by
    rw [length_append] at hshort
    omega
  simp only [positionAfter_of_short hshort, positionAfter_of_short hfirst, count_append]
  by_cases hbreak : '\n' ∈ b
  · have := count_pos_iff.mpr hbreak
    omega
  · have := length_pos_iff.mpr h
    rw [count_eq_zero_of_not_mem hbreak, lastLine_append hbreak, length_append]
    omega

/-- Of two offsets the later one has more characters in front of it. -/
theorem IsBoundary.exists_append {m : Nat} (hm : IsBoundary cs m) (hn : IsBoundary cs n) (hlt : m < n) :
    ∃ a b c, cs = a ++ b ++ c ∧ byteSize a = m ∧ byteSize (a ++ b) = n ∧ b ≠ [] := by
  obtain ⟨a, _, rfl, rfl⟩ := hm
  obtain ⟨a', c, hsplit, rfl⟩ := hn
  rcases append_eq_append_iff.mp hsplit with ⟨b, rfl, rfl⟩ | ⟨b, rfl, rfl⟩
  · refine ⟨a, b, c, (append_assoc ..).symm, rfl, rfl, ?_⟩
    rintro rfl
    rw [append_nil] at hlt
    exact absurd hlt (Nat.lt_irrefl _)
  · rw [byteSize_append] at hlt
    omega

end Text

open Text

/-- **The table of line starts counts** the line breaks, and the characters since the last one. -/
theorem LineIndex.location_append {source : String} {a b : List Char} (h : source.toList = a ++ b) :
    (LineIndex.ofSource source).location (byteSize a) =
      ⟨some (positionAfter a).1, some (positionAfter a).2, byteSize a⟩ := by
  obtain ⟨front, hfront⟩ := exists_append_lastLine a
  have hstart : (0 :: breaksFrom 0 a).getLast?.getD 0 = byteSize front := by
    have hsum := getLast?_starts a
    have hsize := congrArg byteSize hfront
    rw [byteSize_append] at hsize
    omega
  have hslice : slice? (a ++ b) ⟨byteSize front, byteSize a⟩ = some (lastLine a) := by
    have := slice?_append front (lastLine a) b
    rwa [← append_assoc, ← byteSize_append, ← hfront] at this
  have hmin : min (byteSize a) (byteSize (a ++ b)) = byteSize a := by
    rw [byteSize_append]
    omega
  simp only [location, ofSource, h, hmin, filter_starts, hstart, hslice, length_cons,
    length_breaksFrom, positionAfter, Nat.add_sub_cancel]

end SwiftOutline
