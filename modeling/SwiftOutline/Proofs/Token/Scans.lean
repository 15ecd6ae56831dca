import SwiftOutline.Proofs.Token.Partition

/-!
# `Scans` — how the scans go on, and from where

The scan of a gap and the scan of a string go in steps: a step looks at what stands at the start of the
text, takes some of it, and goes on behind it. No scan asks where in a source it stands: it only counts,
so that tokens and errors have their offsets. A scan that begins further on therefore has the same
outcome, but that an error is further on by as much.
-/

namespace SwiftOutline

/-! ## Gaps -/

/-- A mark that opens a comment stands at the start of the text. -/
def opensComment : List Char → Bool
  | '/' :: '/' :: _ => true
  | '/' :: '*' :: _ => true
  | _ => false

variable {c : Char} {cs : List Char} {pos : Nat}

theorem scanGap_blank (hc : Text.isBlank c = true) (pos : Nat) (cs : List Char) :
    scanGap .between pos (c :: cs) =
      (scanGap .between (pos + c.utf8Size) cs).map (·.push [c] (c == '\n' || c == '\r')) := by
  have hslash : c ≠ '/' := by
    rintro rfl
    exact absurd hc (by decide)
  rw [scanGap.eq_def]
  split <;> simp_all

theorem scanGap_stop (hc : Text.isBlank c = false) (h : opensComment (c :: cs) = false) (pos : Nat) :
    scanGap .between pos (c :: cs) = .ok ⟨[], false, c :: cs⟩ := by
  rw [scanGap.eq_def]
  split <;> simp_all [opensComment]

theorem scanGap_inside (h : startsMark (c :: cs) = false) (start depth pos : Nat) :
    scanGap (.block start depth) pos (c :: cs) =
      (scanGap (.block start depth) (pos + c.utf8Size) cs).map (·.push [c] (c == '\n')) := by
  rw [scanGap.eq_def]
  split <;> simp_all [startsMark]

theorem opensComment_eq_false
    (hline : ∀ ds, c = '/' → cs = '/' :: ds → False) (hblock : ∀ ds, c = '/' → cs = '*' :: ds → False) :
    opensComment (c :: cs) = false := by
  unfold opensComment
  split
  · next ds heq =>
    cases heq
    exact (hline ds rfl rfl).elim
  · next ds heq =>
    cases heq
    exact (hblock ds rfl rfl).elim
  · rfl

/-! ## Strings -/

/-- What stands at the start of the text of a string: three quotes, a backslash in front of a character,
or any other character. -/
inductive StringMark where
  | quotes
  | escape (c : Char)
  | single (c : Char)

def stringMark : List Char → Option StringMark
  | [] => none
  | '"' :: '"' :: '"' :: _ => some .quotes
  | '\\' :: c :: _ => some (.escape c)
  | c :: _ => some (.single c)

/-- What the scan takes at a mark, where `s` is the innermost of the open strings, and the strings that
are open behind it. A string of one line cannot go on with a line feed. -/
def markStep (s : OpenString) (outer : List OpenString) (pos : Nat) :
  StringMark → Option (List Char × List OpenString)
  | .quotes =>
    if s.parens ≠ 0 then some (['"', '"', '"'], ⟨true, pos, 0⟩ :: s :: outer)
    else if s.multiline then some (['"', '"', '"'], outer)
    else some (['"'], outer)
  | .escape c =>
    if s.parens ≠ 0 then some (['\\'], s :: outer)
    else some (['\\', c], { s with parens := if c = '(' then 1 else 0 } :: outer)
  | .single c =>
    if s.parens ≠ 0 then
      if c = '"' then some ([c], ⟨false, pos, 0⟩ :: s :: outer)
      else if c = '(' then some ([c], { s with parens := s.parens + 1 } :: outer)
      else if c = ')' then some ([c], { s with parens := s.parens - 1 } :: outer)
      else some ([c], s :: outer)
    else if s.multiline then some ([c], s :: outer)
    else if c = '\n' then none
    else if c = '"' then some ([c], outer)
    else some ([c], s :: outer)

/-- One step of the scan of a string. -/
def stringStep (s : OpenString) (outer : List OpenString) (pos : Nat) (cs : List Char) :
    Option (List Char × List OpenString) :=
  (stringMark cs).bind (markStep s outer pos)

/-- The scan behind the text of a step, which leaves these strings open. -/
def scanOpen (text : List Char) (pos : Nat) (cs : List Char) :
    List OpenString → Except LexError (List Char × List Char)
  | [] => .ok (text, cs)
  | o :: os => (scanString o os pos cs).map (pushFront text)

/-- **The scan of a string is a step and the scan of the rest.** -/
theorem scanString_eq (s : OpenString) (outer : List OpenString) (pos : Nat) (cs : List Char) :
    scanString s outer pos cs = (stringStep s outer pos cs).elim
      (.error (.unterminatedString s.start)) fun p =>
      scanOpen p.1 (pos + Text.byteSize p.1) (cs.drop p.1.length) p.2 := by
  fun_cases scanString s outer pos cs <;> simp_all [stringStep, stringMark, markStep, scanOpen,
    Nat.add_assoc] <;> rfl

/-- A step takes characters from the start of the text. -/
theorem exists_of_stringStep {s : OpenString} {outer opened : List OpenString} {text : List Char}
    (h : stringStep s outer pos cs = some (text, opened)) : text ≠ [] ∧ text ++ cs.drop text.length = cs := by
  obtain ⟨m, hm, hstep⟩ := Option.bind_eq_some_iff.mp h
  unfold stringMark at hm
  split at hm <;> cases hm
  · grind [markStep]
  · grind [markStep]
  · grind [markStep]

theorem stringMark_quote (cs : List Char) :
    stringMark ('"' :: cs) = some (if ['"', '"'] <+: cs then .quotes else .single '"') := by
  by_cases h : ['"', '"'] <+: cs
  · obtain ⟨tail, rfl⟩ := h
    rw [if_pos (List.prefix_append _ _)]
    rfl
  · rw [if_neg h, stringMark]
    · rintro tail - rfl
      exact h ⟨tail, rfl⟩
    · rintro c tail ⟨⟩

/-- A step is the same with other text behind what it takes, if three quotes do not come about there, and
a backslash at the end of the text has no part in it. -/
theorem stringStep_swap {s : OpenString} {outer opened : List OpenString} {text more : List Char}
    (h : stringStep s outer pos cs = some (text, opened))
    (hquotes : ['"', '"'] <+: more → ['"', '"'] <+: cs.drop text.length)
    (hend : opened = [] ∨ cs.drop text.length ≠ []) :
    stringStep s outer pos (text ++ more) = some (text, opened) := by
  obtain ⟨m, hm, hstep⟩ := Option.bind_eq_some_iff.mp h
  unfold stringMark at hm
  split at hm <;> cases hm
  · grind [stringStep, stringMark_quote, stringMark, markStep]
  · cases more <;> grind [stringStep, stringMark, markStep]
  · next c tail hnot hescape =>
    by_cases hquote : c = '"'
    · grind [stringStep, stringMark_quote, stringMark, markStep]
    · by_cases hback : c = '\\'
      · cases tail <;> grind [markStep]
      · have hsingle : stringMark (c :: more) = some (.single c) := by
          unfold stringMark
          split <;> simp_all
        grind [stringStep, markStep]

/-- Induction over the steps of a scan. -/
theorem scanString_induction {motive : OpenString → List OpenString → Nat → List Char → Prop}
    (step : ∀ s outer pos cs, (∀ text o os, stringStep s outer pos cs = some (text, o :: os) →
      motive o os (pos + Text.byteSize text) (cs.drop text.length)) → motive s outer pos cs)
    (s : OpenString) (outer : List OpenString) (pos : Nat) (cs : List Char) : motive s outer pos cs := by
  induction hn : cs.length using Nat.strongRecOn generalizing s outer pos cs with
  | ind n ih =>
    refine step s outer pos cs fun text o os hstep => ih _ ?_ o os _ _ rfl
    obtain ⟨hne, happend⟩ := exists_of_stringStep hstep
    have hpos := List.length_pos_iff.mpr hne
    rw [← hn, ← happend, List.length_append, List.drop_left]
    omega

/-! ## Offsets -/

/-- The error in a text that stands `base` bytes further on. -/
def LexError.shiftUp (base : Nat) : LexError → LexError
  | unterminatedString n => unterminatedString (n + base)
  | unterminatedComment n => unterminatedComment (n + base)
  | unexpectedCharacter c n => unexpectedCharacter c (n + base)

/-- The same place of a gap in a text that stands `base` bytes further on. -/
def GapMode.shiftUp (base : Nat) : GapMode → GapMode
  | between => between
  | line => line
  | block start depth => block (start + base) depth

/-- The open string in a text that stands `base` bytes further on. -/
def OpenString.shiftUp (base : Nat) (s : OpenString) : OpenString := { s with start := s.start + base }

/-- The outcome of a scan in a text that stands `base` bytes further on: only an error names an offset. -/
def shiftError {α : Type} (base : Nat) (x : Except LexError α) : Except LexError α :=
  x.mapError (LexError.shiftUp base)

theorem shiftError_map {α β : Type} (base : Nat) (x : Except LexError α) (f : α → β) :
    shiftError base (x.map f) = (shiftError base x).map f := by
  cases x <;> rfl

/-- **A gap from a larger offset.** -/
theorem scanGap_from (base : Nat) (mode : GapMode) (pos : Nat) (cs : List Char) :
    scanGap (mode.shiftUp base) (pos + base) cs = shiftError base (scanGap mode pos cs) := by
  fun_induction scanGap mode pos cs with
  | case1 => rfl
  | case2 mode _ h =>
    cases mode with
    | between | line => rfl
    | block start depth => exact (h start depth rfl).elim
  | case6 pos c cs hline hblock hc =>
    exact scanGap_stop (Bool.eq_false_iff.mpr hc) (opensComment_eq_false hline hblock) (pos + base)
  | case5 pos c cs hline hblock hc ih =>
    rw [shiftError_map, ← ih, Nat.add_right_comm]
    exact scanGap_blank hc (pos + base) cs
  | case8 pos c cs hc ih =>
    rw [shiftError_map, ← ih, Nat.add_right_comm]
    exact if_neg hc
  | case12 start depth pos c cs hopen hclose hclose' ih =>
    rw [shiftError_map, ← ih, Nat.add_right_comm]
    exact scanGap_inside (startsMark_eq_false hopen hclose hclose') (start + base) depth (pos + base)
  | case3 _ _ ih | case4 _ _ ih | case7 _ _ ih | case9 _ _ _ _ ih | case10 _ _ _ ih | case11 _ _ _ _ ih =>
    rw [shiftError_map, ← ih, Nat.add_right_comm]
    rfl

/-- A step of the scan of a string from a larger offset. -/
theorem stringStep_from (base : Nat) (s : OpenString) (outer : List OpenString) (pos : Nat) (cs : List Char) :
    stringStep (s.shiftUp base) (outer.map (OpenString.shiftUp base)) (pos + base) cs =
      (stringStep s outer pos cs).map fun p => (p.1, p.2.map (OpenString.shiftUp base)) := by
  unfold stringStep
  rw [Option.map_bind]
  congr 1
  funext m
  cases m <;> grind [markStep, OpenString.shiftUp]

/-- **An open string from a larger offset**, with the strings around it. -/
theorem scanString_from (base : Nat) (s : OpenString) (outer : List OpenString) (pos : Nat) (cs : List Char) :
    scanString (s.shiftUp base) (outer.map (OpenString.shiftUp base)) (pos + base) cs =
      shiftError base (scanString s outer pos cs) := by
  induction s, outer, pos, cs using scanString_induction with
  | step s outer pos cs ih =>
    rw [scanString_eq, stringStep_from, scanString_eq s outer pos cs]
    rcases hstep : stringStep s outer pos cs with _ | ⟨text, _ | ⟨o, os⟩⟩
    · rfl
    · rfl
    · show (scanString _ _ (pos + base + Text.byteSize text) _).map _ =
        shiftError base ((scanString _ _ _ _).map _)
      rw [Nat.add_right_comm, ih text o os hstep, shiftError_map]

theorem scanRawString_from (base hashes pos : Nat) (cs : List Char) :
    scanRawString hashes (pos + base) cs = shiftError base (scanRawString hashes pos cs) := by
  simp only [scanRawString]
  split <;> rfl

theorem scanPound_from (base pos : Nat) (cs : List Char) :
    scanPound (pos + base) cs = shiftError base (scanPound pos cs) := by
  simp only [scanPound]
  split
  · rw [scanRawString_from, shiftError_map]
  · split <;> rfl

/-- **A token from a larger offset.** -/
theorem scanLexeme_from (base pos : Nat) (c : Char) (cs : List Char) :
    scanLexeme (pos + base) c cs = shiftError base (scanLexeme pos c cs) := by
  unfold scanLexeme
  split
  · rfl
  split
  · cases scanEscaped cs <;> rfl
  split
  · rfl
  split
  · rfl
  split
  · simp only
    rw [shiftError_map, ← scanString_from, Nat.add_right_comm pos base 1, Nat.add_right_comm (pos + 1)]
    rfl
  split
  · exact scanPound_from base pos cs
  · cases scanPunct c cs <;> rfl

/-- What a scan finds at one offset it finds at all, if an offset only shifts its errors. -/
theorem ok_of_shiftError {α : Type} (scan : Nat → Except LexError α)
    (hscan : ∀ pos, scan pos = shiftError pos (scan 0)) {a : α} (h : scan pos = .ok a) (pos' : Nat) :
    scan pos' = .ok a := by
  rw [hscan] at h ⊢
  cases hzero : scan 0 with
  | error e =>
    rw [hzero] at h
    cases h
  | ok b =>
    rw [hzero] at h
    cases h
    rfl

theorem scanGap_at {g : Gap} (h : scanGap .between pos cs = .ok g) (pos' : Nat) :
    scanGap .between pos' cs = .ok g := by
  refine ok_of_shiftError (fun pos => scanGap .between pos cs) (fun pos => ?_) h pos'
  rw [← scanGap_from, Nat.zero_add]
  rfl

theorem scanLexeme_at {l : Lexeme} (h : scanLexeme pos c cs = .ok l) (pos' : Nat) :
    scanLexeme pos' c cs = .ok l := by
  refine ok_of_shiftError (fun pos => scanLexeme pos c cs) (fun pos => ?_) h pos'
  rw [← scanLexeme_from, Nat.zero_add]

end SwiftOutline
