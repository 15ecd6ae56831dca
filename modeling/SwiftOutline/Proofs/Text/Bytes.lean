import SwiftOutline.Text.Span

/-!
# `Bytes` — offsets that fall between characters

A split of a text into parts gives offsets that fall between characters, and slicing at such offsets gives
the parts back.
-/

namespace SwiftOutline

namespace Text

theorem byteSize_ofList (cs : List Char) : (String.ofList cs).utf8ByteSize = byteSize cs := by
  induction cs with
  | nil => rfl
  | cons c cs ih =>
    rw [String.ofList_cons, String.utf8ByteSize_append, String.utf8ByteSize_singleton, ih,
      byteSize_cons]

theorem byteSize_toList (s : String) : byteSize s.toList = s.utf8ByteSize := by
  rw [← byteSize_ofList, String.ofList_toList]

theorem byteSize_pos {cs : List Char} (h : cs ≠ []) : 0 < byteSize cs := by
  cases cs with
  | nil => exact absurd rfl h
  | cons c cs =>
    have hc := c.utf8Size_pos
    rw [byteSize_cons]
    omega

theorem dropBytes?_cons (c : Char) (cs : List Char) (n : Nat) :
    dropBytes? (c :: cs) (c.utf8Size + n) = dropBytes? cs n := by
  have hc := c.utf8Size_pos
  obtain ⟨m, hm⟩ : ∃ m, c.utf8Size + n = m + 1 := ⟨c.utf8Size + n - 1, by omega⟩
  rw [hm, dropBytes?, if_pos (by omega), show m + 1 - c.utf8Size = n by omega]

theorem takeBytes?_cons (c : Char) (cs : List Char) (n : Nat) :
    takeBytes? (c :: cs) (c.utf8Size + n) = (takeBytes? cs n).map (c :: ·) := by
  have hc := c.utf8Size_pos
  obtain ⟨m, hm⟩ : ∃ m, c.utf8Size + n = m + 1 := ⟨c.utf8Size + n - 1, by omega⟩
  rw [hm, takeBytes?, if_pos (by omega), show m + 1 - c.utf8Size = n by omega]

theorem dropBytes?_append (a b : List Char) : dropBytes? (a ++ b) (byteSize a) = some b := by
  induction a with
  | nil =>
    rw [List.nil_append, byteSize_nil]
    cases b <;> rfl
  | cons c a ih => rw [List.cons_append, byteSize_cons, dropBytes?_cons, ih]

theorem takeBytes?_append (a b : List Char) : takeBytes? (a ++ b) (byteSize a) = some a := by
  induction a with
  | nil =>
    rw [List.nil_append, byteSize_nil]
    cases b <;> rfl
  | cons c a ih => rw [List.cons_append, byteSize_cons, takeBytes?_cons, ih, Option.map_some]

/-- The middle one of three parts of a text is the slice between its offsets. -/
theorem slice?_append (a b c : List Char) :
    slice? (a ++ (b ++ c)) ⟨byteSize a, byteSize a + byteSize b⟩ = some b := by
  unfold slice?
  rw [if_pos (Nat.le_add_right _ _), dropBytes?_append, Option.bind_some, Nat.add_sub_cancel_left,
    takeBytes?_append]

theorem dropBytes?_eq_some {cs rest : List Char} {n : Nat} (h : dropBytes? cs n = some rest) :
    ∃ a, cs = a ++ rest ∧ byteSize a = n := by
  fun_induction dropBytes? cs n with
  | case1 cs =>
    cases h
    exact ⟨[], rfl, rfl⟩
  | case2 => cases h
  | case3 c cs n hle ih =>
    obtain ⟨a, rfl, ha⟩ := ih h
    refine ⟨c :: a, rfl, ?_⟩
    rw [byteSize_cons]
    omega
  | case4 => cases h

theorem takeBytes?_eq_some {cs part : List Char} {n : Nat} (h : takeBytes? cs n = some part) :
    ∃ b, cs = part ++ b ∧ byteSize part = n := by
  fun_induction takeBytes? cs n generalizing part with
  | case1 cs =>
    cases h
    exact ⟨cs, rfl, rfl⟩
  | case2 => cases h
  | case3 c cs n hle ih =>
    obtain ⟨tail, htail, rfl⟩ := Option.map_eq_some_iff.mp h
    obtain ⟨b, rfl, hb⟩ := ih htail
    refine ⟨b, rfl, ?_⟩
    rw [byteSize_cons]
    omega
  | case4 => cases h

/-- A slice is the middle one of three parts, at the offsets of its span. -/
theorem slice?_eq_some {cs part : List Char} {s : Span} (h : slice? cs s = some part) :
    ∃ a b, cs = a ++ (part ++ b) ∧ byteSize a = s.start ∧ byteSize a + byteSize part = s.stop := by
  unfold slice? at h
  split at h
  · next hle =>
    obtain ⟨rest, hdrop, htake⟩ := Option.bind_eq_some_iff.mp h
    obtain ⟨a, rfl, ha⟩ := dropBytes?_eq_some hdrop
    obtain ⟨b, rfl, hb⟩ := takeBytes?_eq_some htake
    exact ⟨a, b, rfl, ha, by omega⟩
  · cases h

end Text

end SwiftOutline
