import SwiftOutline.Proofs.Text.Position

/-!
# `Lookup` — two ways to look a position up

The table of line starts is searched for the last line that starts at or before an offset, and reading
from the start steps over every character. Both clamp an offset past the end of the text, each in its own
way: the table by moving the offset to the end, the reading by running out of characters.
-/

namespace SwiftOutline

open Text

/-- Past the end of the text there is nothing more to read. -/
theorem Text.advance_beyond {cs : List Char} {offset : Nat} (h : byteSize cs ≤ offset) (line column : Nat) :
    advance cs offset line column = advance cs (byteSize cs) line column := by
  obtain ⟨n, rfl⟩ := Nat.exists_eq_add_of_le h
  have happend := advance_append cs [] n line column
  rwa [List.append_nil, advance] at happend

theorem Text.positionAt_beyond {source : String} {offset : Nat} (h : byteSize source.toList ≤ offset) :
    positionAt source offset = positionAfter source.toList := by
  rw [positionAt, advance_beyond h, advance_byteSize]

namespace LineIndex

/-- The table knows no offset past the end of the text. -/
theorem location_clamped (index : LineIndex) (offset : Nat) :
    index.location (min offset (byteSize index.source)) = index.location offset := by
  rw [location, location, Nat.min_assoc, Nat.min_self]

/-- **A search of the table finds the line.** The lines that start at or before the end of `a` are the
first ones of the table, one more than `a` has line breaks. -/
theorem getElem?_starts {source : String} {a b : List Char} (h : source.toList = a ++ b) {i start : Nat}
    (hstart : (ofSource source).starts[i]? = some start) : start ≤ byteSize a ↔ i < a.count '\n' + 1 := by
  have hsplit : (ofSource source).starts = (0 :: breaksFrom 0 a) ++ breaksFrom (byteSize a) b := by
    rw [ofSource, h, breaksFrom_append, Nat.zero_add, List.cons_append]
  have hlength : (0 :: breaksFrom 0 a).length = a.count '\n' + 1 := by
    rw [List.length_cons, length_breaksFrom]
  rw [hsplit] at hstart
  by_cases hi : i < a.count '\n' + 1
  · rw [List.getElem?_append_left (hlength ▸ hi)] at hstart
    refine iff_of_true ?_ hi
    rcases List.mem_cons.mp (List.mem_of_getElem? hstart) with rfl | hmem
    · exact Nat.zero_le _
    · have := mem_breaksFrom hmem
      omega
  · rw [List.getElem?_append_right (by omega)] at hstart
    refine iff_of_false ?_ hi
    have := mem_breaksFrom (List.mem_of_getElem? hstart)
    omega

end LineIndex

/-- An offset between two characters, or past the end, is moved to the end of some characters of the text. -/
theorem Text.exists_before {source : String} {offset : Nat}
    (h : IsBoundary source.toList offset ∨ source.utf8ByteSize < offset) :
    ∃ before after, source.toList = before ++ after ∧ byteSize before = min offset source.utf8ByteSize ∧
      positionAt source offset = positionAfter before := by
  rw [← byteSize_toList] at h ⊢
  rcases h with hboundary | hbeyond
  · have hle := hboundary.le
    obtain ⟨before, after, hsplit, rfl⟩ := hboundary
    exact ⟨before, after, hsplit, by omega, positionAt_append hsplit⟩
  · exact ⟨source.toList, [], (List.append_nil _).symm, by omega, positionAt_beyond (Nat.le_of_lt hbeyond)⟩

/-- Both ways to look up an offset find it in this line and column. -/
def LookupsAgree (source : String) (offset : Nat) : Prop :=
  ∃ before after line column, source.toList = before ++ after ∧
    byteSize before = min offset source.utf8ByteSize ∧
    (LineIndex.ofSource source).location offset = ⟨some line, some column, min offset source.utf8ByteSize⟩ ∧
    positionAt source offset = (line, column) ∧
    line = 1 + before.count '\n' ∧ column = 1 + (lastLine before).length ∧
    (∀ i start, (LineIndex.ofSource source).starts[i]? = some start →
      (start ≤ min offset source.utf8ByteSize ↔ i < line)) ∧
    line < UInt32.size ∧ column < UInt32.size

/-- **Both ways to look a position up agree.** Take an offset between two characters of a text, or past
its end, which is as good as the end. The table of line starts and reading from the start give the same
line and column: one more than the line breaks before the offset, and one more than the characters since
the last of them. The lines of the table that start at or before the offset are those up to this line. In
a text of fewer than `2 ^ 32 - 1` characters both numbers fit into 32 bits. -/
theorem lookups_agree {source : String} {offset : Nat} (hshort : source.length < UInt32.size - 1)
    (hoffset : IsBoundary source.toList offset ∨ source.utf8ByteSize < offset) :
    LookupsAgree source offset := by
  obtain ⟨before, after, hsplit, hsize, hposition⟩ := exists_before hoffset
  have hcounts : positionAfter before = (before.count '\n' + 1, (lastLine before).length + 1) := by
    refine positionAfter_of_short ?_
    rw [← String.length_toList, hsplit, List.length_append] at hshort
    omega
  have hfits : (positionAfter before).1 < UInt32.size ∧ (positionAfter before).2 < UInt32.size :=
    ⟨ordinal_lt _, ordinal_lt _⟩
  rw [hcounts] at hposition hfits
  refine ⟨before, after, _, _, hsplit, hsize, ?_, hposition, Nat.add_comm _ _, Nat.add_comm _ _, ?_, hfits⟩
  · have hclamped := (LineIndex.ofSource source).location_clamped offset
    rw [show (LineIndex.ofSource source).source = source.toList from rfl, byteSize_toList,
      ← hsize] at hclamped
    rw [← hclamped, LineIndex.location_append hsplit, hcounts, hsize]
  · intro i start hstart
    rw [← hsize]
    exact LineIndex.getElem?_starts hsplit hstart

/-- The letter behind a line with a letter of two bytes, and an offset past the end. -/
theorem lookups_agree_lines :
    "ä\nb".length < UInt32.size - 1 ∧ IsBoundary "ä\nb".toList 3 ∧ "ä\nb".utf8ByteSize < 9 ∧
    LookupsAgree "ä\nb" 3 ∧ LookupsAgree "ä\nb" 9 ∧ positionAt "ä\nb" 3 = (2, 1) ∧
      positionAt "ä\nb" 9 = (2, 2) := by
  have hshort : "ä\nb".length < UInt32.size - 1 := by decide
  have hboundary : IsBoundary "ä\nb".toList 3 := ⟨['ä', '\n'], ['b'], by decide, by decide⟩
  have hbeyond : "ä\nb".utf8ByteSize < 9 := by decide
  exact ⟨hshort, hboundary, hbeyond, lookups_agree hshort (.inl hboundary),
    lookups_agree hshort (.inr hbeyond), by decide, by decide⟩

end SwiftOutline
