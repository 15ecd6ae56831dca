import SwiftOutline.Token.Gap

/-!
# Lexemes

The token at the start of a text that begins with no gap. Operator characters are tokens of their own,
so that two closing brackets `>>` stay two tokens; only `->`, `...` and `..<` are longer.
-/

namespace SwiftOutline

/-- The text of a token and the text that follows it. -/
structure Lexeme where
  kind : TokenKind
  text : List Char
  rest : List Char
deriving DecidableEq, Repr

/-! ## Identifiers -/

/-- A character that may begin an identifier: an underscore, an ASCII letter, or anything outside
ASCII that is not blank. -/
def isIdentifierStart (c : Char) : Bool :=
  c == '_' || c.isAlpha || (0x80 ≤ c.toNat && !Text.isBlank c)

/-- A character that may stand inside an identifier. -/
def isIdentifierPart (c : Char) : Bool := isIdentifierStart c || c.isDigit

theorem isIdentifierPart_of_start {c : Char} (h : isIdentifierStart c = true) :
    isIdentifierPart c = true := by
  simp [isIdentifierPart, h]

/-- The longest identifier at the start of the text, a reserved word or not. -/
def scanIdentifier (cs : List Char) : Lexeme :=
  let word := cs.takeWhile isIdentifierPart
  ⟨if isKeyword (String.ofList word) then .keyword else .identifier, word,
    cs.dropWhile isIdentifierPart⟩

/-- The text up to the next backtick, and the text after it; `none` if the line or the text ends
first. -/
def scanEscaped : List Char → Option (List Char × List Char)
  | [] => none
  | c :: cs =>
    if c = '\x60' then some ([c], cs)
    else if c = '\n' then none
    else (scanEscaped cs).map fun p => (c :: p.1, p.2)

theorem scanEscaped_append {cs text rest : List Char}
    (h : scanEscaped cs = some (text, rest)) : text ++ rest = cs := by
  fun_induction scanEscaped cs generalizing text rest with
  | case1 => cases h
  | case2 => cases h; rfl
  | case3 => cases h
  | case4 c cs _ _ ih =>
    obtain ⟨p, hp, he⟩ := Option.map_eq_some_iff.mp h
    cases he
    simp [ih hp]

/-! ## Numbers -/

/-- The number goes on with `c`, where `last` is the character before it and `cs` the text after it:
a letter, a digit or an underscore, a point before a digit, or a sign after an exponent letter. With a
radix in front only `p` is an exponent letter. -/
def numberContinues (radix : Bool) (last c : Char) (cs : List Char) : Bool :=
  c.isAlphanum || c == '_' || (c == '.' && cs.head?.any Char.isDigit) ||
    ((c == '+' || c == '-') &&
      (last == 'p' || last == 'P' || (!radix && (last == 'e' || last == 'E'))))

/-- The character makes the number a floating point number. -/
def marksFloat (radix : Bool) (c : Char) : Bool :=
  c == '.' || (!radix && (c == 'e' || c == 'E'))

/-- The rest of a number whose last character was `last`, whether it marks a floating point number,
and the text after it. -/
def scanNumber (radix : Bool) (last : Char) : List Char → List Char × Bool × List Char
  | [] => ([], false, [])
  | c :: cs =>
    if numberContinues radix last c cs then
      let next := scanNumber radix c cs
      (c :: next.1, marksFloat radix c || next.2.1, next.2.2)
    else ([], false, c :: cs)

theorem scanNumber_append (radix : Bool) (last : Char) (cs : List Char) :
    (scanNumber radix last cs).1 ++ (scanNumber radix last cs).2.2 = cs := by
  induction cs generalizing last with
  | nil => rfl
  | cons c cs ih =>
    unfold scanNumber
    split
    · simp [ih c]
    · rfl

/-- The number at the start of the text, which begins with a digit. -/
def scanNumeral (cs : List Char) : Lexeme :=
  let radix := cs.take 2 == ['0', 'x'] || cs.take 2 == ['0', 'o'] || cs.take 2 == ['0', 'b']
  let skip := if radix then 2 else 0
  let scanned := scanNumber radix '\x00' (cs.drop skip)
  ⟨if scanned.2.1 then .floatLiteral else .integerLiteral, cs.take skip ++ scanned.1,
    scanned.2.2⟩

/-! ## Strings -/

/-- A string literal that has been opened at byte `start`. `parens` is zero in its text; in an
interpolation it counts the open parentheses, that of the interpolation included. -/
structure OpenString where
  multiline : Bool
  start : Nat
  parens : Nat
deriving DecidableEq, Repr

/-- Puts characters in front of the first part of a split. -/
def pushFront (cs : List Char) (p : List Char × List Char) : List Char × List Char :=
  (cs ++ p.1, p.2)

@[simp] theorem pushFront_fst (cs : List Char) (p : List Char × List Char) :
    (pushFront cs p).1 = cs ++ p.1 := rfl

@[simp] theorem pushFront_snd (cs : List Char) (p : List Char × List Char) :
    (pushFront cs p).2 = p.2 := rfl

/-- The rest of the innermost open string `s` and of the strings `outer` around it, and the text
after the last of them. A string inside an interpolation is read before the interpolation goes on. -/
def scanString (s : OpenString) (outer : List OpenString) (pos : Nat) :
    List Char → Except LexError (List Char × List Char)
  | [] => .error (.unterminatedString s.start)
  | '"' :: '"' :: '"' :: cs =>
    if s.parens ≠ 0 then
      (scanString ⟨true, pos, 0⟩ (s :: outer) (pos + 3) cs).map (pushFront ['"', '"', '"'])
    else if s.multiline then
      match outer with
      | [] => .ok (['"', '"', '"'], cs)
      | o :: os => (scanString o os (pos + 3) cs).map (pushFront ['"', '"', '"'])
    else
      match outer with
      | [] => .ok (['"'], '"' :: '"' :: cs)
      | o :: os => (scanString o os (pos + 1) ('"' :: '"' :: cs)).map (pushFront ['"'])
  | '\\' :: c :: cs =>
    if s.parens ≠ 0 then (scanString s outer (pos + 1) (c :: cs)).map (pushFront ['\\'])
    else
      (scanString { s with parens := if c = '(' then 1 else 0 } outer (pos + 1 + c.utf8Size)
        cs).map (pushFront ['\\', c])
  | c :: cs =>
    if s.parens ≠ 0 then
      if c = '"' then
        (scanString ⟨false, pos, 0⟩ (s :: outer) (pos + 1) cs).map (pushFront [c])
      else if c = '(' then
        (scanString { s with parens := s.parens + 1 } outer (pos + 1) cs).map (pushFront [c])
      else if c = ')' then
        (scanString { s with parens := s.parens - 1 } outer (pos + 1) cs).map (pushFront [c])
      else (scanString s outer (pos + c.utf8Size) cs).map (pushFront [c])
    else if s.multiline then (scanString s outer (pos + c.utf8Size) cs).map (pushFront [c])
    else if c = '\n' then .error (.unterminatedString s.start)
    else if c = '"' then
      match outer with
      | [] => .ok ([c], cs)
      | o :: os => (scanString o os (pos + 1) cs).map (pushFront [c])
    else (scanString s outer (pos + c.utf8Size) cs).map (pushFront [c])

theorem scanString_append {s : OpenString} {outer : List OpenString} {pos : Nat}
    {cs : List Char} {p : List Char × List Char} (h : scanString s outer pos cs = .ok p) :
    p.1 ++ p.2 = cs := by
  fun_induction scanString s outer pos cs generalizing p with
  | case1 | case14 => cases h
  | case3 | case5 | case15 => cases h; rfl
  | case2 | case4 | case6 | case7 | case8 | case9 | case10 | case11 | case12 | case13 | case16
  | case17 =>
    rename_i ih
    obtain ⟨a, ha, rfl⟩ := ok_of_map_eq_ok h
    simp [ih ha]

/-- The text through the first occurrence of `mark`, and the text after it. -/
def splitAfter (mark : List Char) : List Char → Option (List Char × List Char)
  | [] => none
  | c :: cs =>
    if mark.isPrefixOf (c :: cs) then some (mark, (c :: cs).drop mark.length)
    else (splitAfter mark cs).map (pushFront [c])

theorem splitAfter_append {mark cs : List Char} {p : List Char × List Char}
    (h : splitAfter mark cs = some p) : p.1 ++ p.2 = cs := by
  fun_induction splitAfter mark cs generalizing p with
  | case1 => cases h
  | case2 c cs hm =>
    cases h
    obtain ⟨t, ht⟩ := List.isPrefixOf_iff_prefix.mp hm
    simp [← ht]
  | case3 c cs _ ih =>
    obtain ⟨a, ha, rfl⟩ := Option.map_eq_some_iff.mp h
    simp [ih ha]

/-- The raw string at the start of the text, which begins with `hashes` hash signs and a quote. It
ends at the first quote, or three quotes if it began with three, that as many hash signs follow. -/
def scanRawString (hashes pos : Nat) (cs : List Char) :
    Except LexError (List Char × List Char) :=
  let quotes := if (cs.drop hashes).take 3 = ['"', '"', '"'] then 3 else 1
  let mark := List.replicate quotes '"' ++ List.replicate hashes '#'
  match splitAfter mark (cs.drop (hashes + quotes)) with
  | some p => .ok (pushFront (cs.take (hashes + quotes)) p)
  | none => .error (.unterminatedString pos)

theorem scanRawString_append {hashes pos : Nat} {cs : List Char} {p : List Char × List Char}
    (h : scanRawString hashes pos cs = .ok p) : p.1 ++ p.2 = cs := by
  simp only [scanRawString] at h
  split at h
  · next q hq =>
    cases h
    simp [splitAfter_append hq]
  · cases h

/-! ## Everything else -/

/-- An ASCII character that is neither a letter, a digit, a control nor a space. -/
def isAsciiPunctuation (c : Char) : Bool :=
  0x21 ≤ c.toNat && c.toNat ≤ 0x7e && !c.isAlphanum

/-- The token that begins with the hash sign in front of `cs`: a raw string, a directive, or the
sign alone. -/
def scanPound (pos : Nat) (cs : List Char) : Except LexError Lexeme :=
  let hashes := (cs.takeWhile (· == '#')).length
  if (cs.drop hashes).head? = some '"' then
    (scanRawString (hashes + 1) pos ('#' :: cs)).map fun p => ⟨.stringLiteral, p.1, p.2⟩
  else if cs.head?.any isIdentifierStart then
    .ok ⟨.poundDirective, '#' :: cs.takeWhile isIdentifierPart, cs.dropWhile isIdentifierPart⟩
  else .ok ⟨.punct, ['#'], cs⟩

/-- The operator or punctuation token at the start of the text, if there is one. -/
def scanPunct (c : Char) (cs : List Char) : Option Lexeme :=
  match c, cs with
  | '@', cs => some ⟨.atSign, ['@'], cs⟩
  | '\\', cs => some ⟨.backslash, ['\\'], cs⟩
  | '-', '>' :: cs => some ⟨.arrow, ['-', '>'], cs⟩
  | '.', '.' :: '.' :: cs => some ⟨.ellipsis, ['.', '.', '.'], cs⟩
  | '.', '.' :: '<' :: cs => some ⟨.punct, ['.', '.', '<'], cs⟩
  | c, cs => if isAsciiPunctuation c then some ⟨.punct, [c], cs⟩ else none

/-- The token at the start of the text `c :: cs`, which begins at byte `pos`. -/
def scanLexeme (pos : Nat) (c : Char) (cs : List Char) : Except LexError Lexeme :=
  if isIdentifierStart c then .ok (scanIdentifier (c :: cs))
  else if c = '\x60' then
    match scanEscaped cs with
    | some p => .ok ⟨.identifier, c :: p.1, p.2⟩
    | none => .error (.unexpectedCharacter c pos)
  else if c = '$' then
    .ok ⟨.identifier, c :: cs.takeWhile isIdentifierPart, cs.dropWhile isIdentifierPart⟩
  else if c.isDigit then .ok (scanNumeral (c :: cs))
  else if c = '"' then
    let quotes := if cs.take 2 = ['"', '"'] then 2 else 0
    (scanString ⟨quotes = 2, pos, 0⟩ [] (pos + 1 + quotes) (cs.drop quotes)).map fun p =>
      ⟨.stringLiteral, c :: (cs.take quotes ++ p.1), p.2⟩
  else if c = '#' then scanPound pos cs
  else
    match scanPunct c cs with
    | some l => .ok l
    | none => .error (.unexpectedCharacter c pos)

/-! ## Nothing is lost -/

theorem scanNumeral_append (cs : List Char) :
    (scanNumeral cs).text ++ (scanNumeral cs).rest = cs := by
  simp [scanNumeral, scanNumber_append]

theorem scanPound_append {pos : Nat} {cs : List Char} {l : Lexeme}
    (h : scanPound pos cs = .ok l) : l.text ++ l.rest = '#' :: cs := by
  simp only [scanPound] at h
  split at h
  · obtain ⟨p, hp, rfl⟩ := ok_of_map_eq_ok h
    exact scanRawString_append hp
  · split at h
    · cases h
      simp
    · cases h
      rfl

theorem scanPunct_append {c : Char} {cs : List Char} {l : Lexeme}
    (h : scanPunct c cs = some l) : l.text ++ l.rest = c :: cs := by
  unfold scanPunct at h
  split at h <;> try (cases h; rfl)
  split at h
  · cases h
    rfl
  · cases h

/-- A token's text and the text after it make up the text that was scanned. -/
theorem scanLexeme_append {pos : Nat} {c : Char} {cs : List Char} {l : Lexeme}
    (h : scanLexeme pos c cs = .ok l) : l.text ++ l.rest = c :: cs := by
  unfold scanLexeme at h
  split at h
  · cases h
    simp [scanIdentifier]
  split at h
  · split at h
    · next p hp =>
      cases h
      simp [scanEscaped_append hp]
    · cases h
  split at h
  · cases h
    simp
  split at h
  · cases h
    exact scanNumeral_append _
  split at h
  · obtain ⟨p, hp, rfl⟩ := ok_of_map_eq_ok h
    simp [scanString_append hp]
  split at h
  · next hc =>
    subst hc
    exact scanPound_append h
  · split at h
    · next l' hl =>
      cases h
      exact scanPunct_append hl
    · cases h

/-! ## Every token has text -/

theorem scanNumeral_text_ne_nil {c : Char} {cs : List Char} (h : c.isDigit = true) :
    (scanNumeral (c :: cs)).text ≠ [] := by
  have ha : c.isAlphanum = true := by simp [Char.isAlphanum, h]
  simp only [scanNumeral]
  split
  · simp
  · simp [scanNumber, numberContinues, ha]

theorem scanPound_text_ne_nil {pos : Nat} {cs : List Char} {l : Lexeme}
    (h : scanPound pos cs = .ok l) : l.text ≠ [] := by
  simp only [scanPound] at h
  split at h
  · obtain ⟨p, hp, rfl⟩ := ok_of_map_eq_ok h
    simp only [scanRawString] at hp
    split at hp
    · cases hp
      simp only [pushFront_fst]
      rw [Nat.add_right_comm]
      simp
    · cases hp
  · split at h
    · cases h
      simp
    · cases h
      simp

theorem scanPunct_text_ne_nil {c : Char} {cs : List Char} {l : Lexeme}
    (h : scanPunct c cs = some l) : l.text ≠ [] := by
  unfold scanPunct at h
  split at h <;> try (cases h; simp)
  split at h
  · cases h
    simp
  · cases h

/-- A token takes at least one character. -/
theorem scanLexeme_text_ne_nil {pos : Nat} {c : Char} {cs : List Char} {l : Lexeme}
    (h : scanLexeme pos c cs = .ok l) : l.text ≠ [] := by
  unfold scanLexeme at h
  split at h
  · next hc =>
    cases h
    simp [scanIdentifier, isIdentifierPart_of_start hc]
  split at h
  · split at h
    · cases h
      simp
    · cases h
  split at h
  · cases h
    simp
  split at h
  · next hd =>
    cases h
    exact scanNumeral_text_ne_nil hd
  split at h
  · obtain ⟨p, hp, rfl⟩ := ok_of_map_eq_ok h
    simp
  split at h
  · exact scanPound_text_ne_nil h
  · split at h
    · next l' hl =>
      cases h
      exact scanPunct_text_ne_nil hl
    · cases h

/-- A token leaves less text than there was. -/
theorem length_rest_lt_of_scanLexeme {pos : Nat} {c : Char} {cs : List Char} {l : Lexeme}
    (h : scanLexeme pos c cs = .ok l) : l.rest.length < (c :: cs).length := by
  have hne := List.length_pos_iff.mpr (scanLexeme_text_ne_nil h)
  rw [← scanLexeme_append h, List.length_append]
  omega

end SwiftOutline
