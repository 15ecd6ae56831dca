import SwiftOutline.Failure
import SwiftOutline.Proofs.Grammar.LawfulRules
import SwiftOutline.Proofs.Text.Lookup
import SwiftOutline.Proofs.Token.Refused

/-!
# `ErrorPlaces` — where a text that cannot be parsed goes wrong

A rule that fails names the token that it stopped at, or none at the end of its input. No rule can make
up a token: it commutes with every change of the tokens that it cannot see, also with one that moves all
tokens but those of its input, and such a change leaves its fault alone. So the fault names a token of
the input, and its place is one of the source.
-/

namespace SwiftOutline

open Text

/-! ## Tokens that rules stop at -/

/-- The token that a rule stopped at, unless it was at the end of its input. -/
def Fault.found? : Fault → Option Token
  | .expected _ found => found
  | .tooDeep found => found

theorem Fault.found?_relabel (g : Token → Token) (e : Fault) : (e.relabel g).found? = e.found?.map g := by
  cases e <;> rfl

/-- Moves every token that is not among the given ones. -/
def Token.moveOthers (ts : List Token) (t : Token) : Token :=
  if t ∈ ts then t else { t with start := t.start + 1 }

theorem Token.moveOthers_eq_self {ts : List Token} {t : Token} : t.moveOthers ts = t ↔ t ∈ ts := by
  unfold moveOthers
  by_cases ht : t ∈ ts
  · simp [ht]
  · rw [if_neg ht]
    refine iff_of_false ?_ ht
    intro heq
    have hstart : t.start + 1 = t.start := congrArg Token.start heq
    omega

theorem Token.unseen_moveOthers (ts : List Token) : Unseen (moveOthers ts) where
  kind t := by unfold moveOthers; split <;> rfl
  text t := by unfold moveOthers; split <;> rfl
  newlineBefore t := by unfold moveOthers; split <;> rfl
  isAdjacent t := by unfold moveOthers; split <;> rfl

/-- **A rule stops at a token of its input.** -/
theorem Rule.Lawful.found_mem {p : Rule} (hp : p.Lawful) {ts : List Token} {e : Fault} (h : p ts = .error e)
    {t : Token} (ht : e.found? = some t) : t ∈ ts := by
  have hmap : ts.map (Token.moveOthers ts) = ts := by
    conv_rhs => rw [← List.map_id ts]
    exact List.map_congr_left fun u hu => Token.moveOthers_eq_self.mpr hu
  -- the change leaves the input alone, so it leaves the fault alone
  have hnatural := hp.natural (Token.unseen_moveOthers ts) ts
  rw [hmap, h, relabelOutcome_error, Except.error.injEq] at hnatural
  have hfound := congrArg Fault.found? hnatural
  rw [Fault.found?_relabel, ht, Option.map_some, Option.some_inj] at hfound
  exact Token.moveOthers_eq_self.mp hfound.symm

/-! ## Places -/

/-- A token of the source starts at the offset, and it has the property. -/
def StartsToken (source : String) (offset : Nat) (P : Token → Prop) : Prop :=
  ∃ tokens, tokenize source = .ok tokens ∧ ∃ t ∈ tokens, t.start = offset ∧ P t

/-- What the error says of its place holds of the source. An error of the tokens is at the character that
it is about, and the text from there on is refused by itself. -/
def ParseError.PlacedIn (source : String) : ParseError → Prop
  | lexical e =>
    ∃ before c after, source.toList = before ++ c :: after ∧ byteSize before = e.offset ∧ e.Blames c after ∧
      tokensFrom e.offset (c :: after) = .error e
  | unexpectedToken _ found offset => StartsToken source offset fun t => t.text = found
  | unexpectedEnd _ offset => offset = source.utf8ByteSize
  | nestingTooDeep _ offset => offset = source.utf8ByteSize ∨ StartsToken source offset fun _ => True

theorem isBoundary_size (source : String) : IsBoundary source.toList source.utf8ByteSize :=
  ⟨source.toList, [], (List.append_nil _).symm, byteSize_toList source⟩

variable {source : String}

theorem StartsToken.isBoundary {offset : Nat} {P : Token → Prop} (h : StartsToken source offset P) :
    IsBoundary source.toList offset := by
  obtain ⟨tokens, htokens, t, ht, rfl, -⟩ := h
  obtain ⟨-, -, -, before, after, hsource, hstart⟩ := (laid_of_tokensFrom htokens).token_slice ht
  exact ⟨before, t.text.toList ++ after, hsource, by omega⟩

theorem ParseError.PlacedIn.isBoundary {e : ParseError} (h : e.PlacedIn source) :
    IsBoundary source.toList e.offset := by
  cases e with
  | lexical e =>
    obtain ⟨before, c, after, hsource, hsize, -⟩ := h
    exact ⟨before, c :: after, hsource, hsize⟩
  | unexpectedToken expected found offset => exact StartsToken.isBoundary h
  | unexpectedEnd expected offset =>
    cases h
    exact isBoundary_size source
  | nestingTooDeep limit offset =>
    rcases h with rfl | hstarts
    · exact isBoundary_size source
    · exact hstarts.isBoundary

theorem placedIn_lexical {e : LexError} (h : tokenize source = .error e) :
    (ParseError.lexical e).PlacedIn source := by
  obtain ⟨before, after, hsource, hoffset, ⟨c, rest, rfl, hblames⟩, hrest⟩ := tokensFrom_error h
  rw [Nat.zero_add] at hoffset hrest
  exact ⟨before, c, rest, hsource, hoffset.symm, hblames, hoffset ▸ hrest⟩

/-- The place of an error that a fault is reported as. -/
theorem placedIn_ofFault {tokens : List Token} (htokens : tokenize source = .ok tokens) {fault : Fault}
    (hmem : ∀ t, fault.found? = some t → t ∈ tokens) :
    (ParseError.ofFault source.utf8ByteSize fault).PlacedIn source := by
  cases fault with
  | expected what found =>
    cases found with
    | none => exact rfl
    | some t => exact ⟨tokens, htokens, t, hmem t rfl, rfl, rfl⟩
  | tooDeep found =>
    cases found with
    | none => exact .inl rfl
    | some t => exact .inr ⟨tokens, htokens, t, hmem t rfl, rfl, trivial⟩

theorem placedIn_of_parseWith {root : NodeKind} {rule : Rule} (hrule : rule.Lawful) {e : ParseError}
    (h : parseWith root rule source = .error e) : e.PlacedIn source := by
  unfold parseWith at h
  split at h
  · next hlex =>
    cases h
    exact placedIn_lexical hlex
  · next tokens htokens =>
    split at h
    · next fault hfault =>
      cases h
      exact placedIn_ofFault htokens fun t ht => hrule.found_mem hfault ht
    · cases h

/-- The error has a place in the source, and is reported with the line and column of it. -/
structure ParseError.Points (source : String) (e : ParseError) : Prop where
  inside : e.offset ≤ source.utf8ByteSize
  boundary : IsBoundary source.toList e.offset
  placed : e.PlacedIn source
  reported : ∀ file, ∃ line column, Failure.ofSourceError file source e =
    .unparsable file line column e.message ∧
    (LineIndex.ofSource source).location e.offset = ⟨some line, some column, e.offset⟩

/-- **Errors point at a place of the source.** If a source file or a type cannot be parsed, then the
place of the error is inside the text and between two characters. An unexpected token is there with just
the text that was found, a missing one is at the end of the text, and a construct that is nested too deep
is at a token or at the end. An error of the tokens is at the character that opens the string, the
comment or the name that is not closed, or at a control character that is not blank. So the line and the
column that are reported are those that the table of line starts gives. -/
theorem errors_placed {source : String} {e : ParseError}
    (h : parseSource source = .error e ∨ parseType source = .error e) : e.Points source := by
  have hplaced : e.PlacedIn source := by
    rcases h with hsource | htype
    · exact placedIn_of_parseWith Rule.lawful_sourceItems hsource
    · exact placedIn_of_parseWith Rule.lawful_soleType htype
  have hboundary := hplaced.isBoundary
  refine ⟨?_, hboundary, hplaced, ?_⟩
  · rw [← byteSize_toList]
    exact hboundary.le
  · intro file
    obtain ⟨before, after, hsource, hsize⟩ := hboundary
    refine ⟨(positionAfter before).1, (positionAfter before).2, ?_, ?_⟩
    · rw [Failure.ofSourceError, ← hsize, positionAt_append hsource]
    · rw [← hsize, LineIndex.location_append hsource]

/-- A string inside the interpolation of another is not closed, in the second line of a file, and the
type of an element is missing. -/
theorem errors_placed_nested :
    ∃ source text e e', source = "/* ä */\nlet s = \"ä\\(f(\"x" ∧ text = "(ä Int: ->" ∧
    parseSource source = .error e ∧ e = .lexical (.unterminatedString 24) ∧ e.Points source ∧
    parseType text = .error e' ∧ e' = .unexpectedToken "type" "->" 9 ∧ e'.Points text ∧
    positionAt source e.offset = (2, 15) := by
  have hsource : parseSource "/* ä */\nlet s = \"ä\\(f(\"x" = .error (.lexical (.unterminatedString 24)) :=
    error_of_map_eq_error (f := fun _ => ()) (by decide +kernel)
  have htype : parseType "(ä Int: ->" = .error (.unexpectedToken "type" "->" 9) :=
    error_of_map_eq_error (f := fun _ => ()) (by decide +kernel)
  exact ⟨_, _, _, _, rfl, rfl, hsource, rfl, errors_placed (.inl hsource), htype, rfl,
    errors_placed (.inr htype), by decide +kernel⟩

end SwiftOutline
