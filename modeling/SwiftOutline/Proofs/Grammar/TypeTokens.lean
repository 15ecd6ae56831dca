import SwiftOutline.Proofs.Grammar.TypeSyntax
import SwiftOutline.Proofs.Token.Slice

/-!
# `TypeTokens` — the tokens of a type that is written out

A space ends every token, and nothing has to end an `@`. So chunks with single spaces between them are
split into the tokens that they were written from.
-/

namespace SwiftOutline

/-! ## Scanning one token -/

/-- The token without its place in the text. -/
def Token.unplaced (t : Token) : Token := { t with start := 0 }

/-- The text is empty or begins with a space. -/
def StartsBlank (cs : List Char) : Prop := cs = [] ∨ ∃ ds, cs = ' ' :: ds

/-- In front of `after` the token is scanned as it is, whatever its place. -/
def Token.Scans (t : Token) (after : List Char) : Prop :=
  ∃ c cs, t.text.toList = c :: cs ∧ Text.isBlank c = false ∧ c ≠ '/' ∧
    ∀ pos, scanLexeme pos c (cs ++ after) = .ok ⟨t.kind, c :: cs, after⟩

theorem takeWhile_all_append {p : Char → Bool} {cs after : List Char} (hcs : cs.all p = true)
    (hafter : after.takeWhile p = []) :
    (cs ++ after).takeWhile p = cs ∧ (cs ++ after).dropWhile p = after := by
  have hall : ∀ c ∈ cs, p c = true := List.all_eq_true.mp hcs
  have hdrop : after.dropWhile p = after := by
    have h := List.takeWhile_append_dropWhile (p := p) (l := after)
    rwa [hafter, List.nil_append] at h
  rw [List.takeWhile_append_of_pos hall, hafter, List.append_nil, List.dropWhile_append_of_pos hall, hdrop]
  exact ⟨rfl, rfl⟩

theorem isBlank_of_isIdentifierStart {c : Char} (h : isIdentifierStart c = true) :
    Text.isBlank c = false := by
  rw [isIdentifierStart, Bool.or_eq_true, Bool.or_eq_true] at h
  rcases h with (h | h) | h
  · rw [beq_iff_eq.mp h]
    decide
  · have hrange : (65 ≤ c.toNat ∧ c.toNat ≤ 90) ∨ (97 ≤ c.toNat ∧ c.toNat ≤ 122) := by
      have hletter : (decide ('A'.val ≤ c.val ∧ c.val ≤ 'Z'.val) || decide ('a'.val ≤ c.val) && decide
          (c.val ≤ 'z'.val)) =
          true := h
      simp only [Bool.or_eq_true, Bool.and_eq_true, decide_eq_true_eq, UInt32.le_iff_toNat_le] at hletter
      exact hletter
    simp only [Text.isBlank, Bool.or_eq_false_iff, Bool.and_eq_false_iff, decide_eq_false_iff_not,
      beq_eq_false_iff_ne]
    omega
  · obtain ⟨-, h⟩ := Bool.and_eq_true_iff.mp h
    rwa [Bool.not_eq_true'] at h

/-- A space ends a word, and so does the end of the text. -/
theorem Word.scans (w : Word) {t : Token} (hkind : t.kind = w.kind) (htext : t.text = w.text)
    {after : List Char} (h : StartsBlank after) : t.Scans after := by
  have hplain := w.plain
  unfold isPlainWord at hplain
  split at hplain
  · cases hplain
  · next c cs hcs =>
    obtain ⟨hstart, hparts⟩ := Bool.and_eq_true_iff.mp hplain
    have hafter : after.takeWhile isIdentifierPart = [] := by
      rcases h with rfl | ⟨ds, rfl⟩
      · rfl
      · rfl
    have hall : (c :: cs).all isIdentifierPart = true := by
      rw [List.all_cons, isIdentifierPart_of_start hstart, hparts]
      rfl
    obtain ⟨htake, hdrop⟩ := takeWhile_all_append hall hafter
    refine ⟨c, cs, by rw [htext, hcs], isBlank_of_isIdentifierStart hstart, ?_, ?_⟩
    · rintro rfl
      exact absurd hstart (by decide)
    · intro pos
      rw [scanLexeme, if_pos hstart, ← List.cons_append, scanIdentifier, htake, hdrop, hkind,
        Word.kind, ← hcs, String.ofList_toList]

theorem Mark.scans_atSign (after : List Char) : Mark.atSign.token.Scans after :=
  ⟨'@', [], rfl, by decide, by decide, fun _ => rfl⟩

theorem Mark.scans (m : Mark) {after : List Char} (h : StartsBlank after) : m.token.Scans after := by
  -- only a dot looks at what follows it, and a space keeps it alone
  rcases h with rfl | ⟨ds, rfl⟩
  · cases m <;> exact ⟨_, _, rfl, by decide, by decide, fun _ => rfl⟩
  · cases m <;> exact ⟨_, _, rfl, by decide, by decide, fun _ => rfl⟩

/-! ## Runs of tokens -/

/-- The text of the tokens is split into them, wherever it begins. -/
def Rereads (us : List Token) : Prop :=
  ∀ pos, ∃ ts, tokensFrom pos (Token.layout us) = .ok ts ∧ ts.map Token.unplaced = us

/-- No more than one space stands in front of the token. -/
def Token.IsSpaced (t : Token) : Prop := (t.lead = "" ∨ t.lead = " ") ∧ t.newlineBefore = false

theorem scanGap_lead {lead : String} (hlead : lead = "" ∨ lead = " ") {c : Char}
    (hblank : Text.isBlank c = false) (hslash : c ≠ '/') (pos : Nat) (cs : List Char) :
    scanGap .between pos (lead.toList ++ c :: cs) = .ok ⟨lead.toList, false, c :: cs⟩ := by
  have hopens : opensComment (c :: cs) = false :=
    opensComment_eq_false (fun _ h => absurd h hslash) (fun _ h => absurd h hslash)
  rcases hlead with rfl | rfl
  · exact scanGap_stop hblank hopens pos
  · show scanGap .between pos (' ' :: c :: cs) = _
    rw [scanGap_blank (by decide), scanGap_stop hblank hopens]
    rfl

/-- A token that is scanned as it is in front of a run. -/
theorem Rereads.cons {t : Token} {us : List Token} (ht : t.IsSpaced) (hstart : t.start = 0)
    (hscans : t.Scans (Token.layout us)) (hus : Rereads us) : Rereads (t :: us) := by
  obtain ⟨c, cs, htext, hblank, hslash, hscan⟩ := hscans
  intro pos
  obtain ⟨ts, hts, hmap⟩ := hus (pos + Text.byteSize t.lead.toList + Text.byteSize (c :: cs))
  have hgap := scanGap_lead ht.1 hblank hslash pos (cs ++ Token.layout us)
  have hfirst := tokensFrom_of_gap hgap rfl (hscan _) hts
  rw [Token.layout_cons, htext, List.cons_append]
  refine ⟨_, hfirst, ?_⟩
  rw [List.map_cons, hmap, ← htext, String.ofList_toList, String.ofList_toList]
  congr 1
  rw [Token.unplaced, ← ht.2, ← hstart]

theorem rereads_nil : Rereads [] := fun pos => ⟨[], tokensFrom_nil pos, rfl⟩

/-- Chunks are written with a space in front of each. -/
theorem startsBlank_layout (ps : List Chunk) : StartsBlank (Token.layout (tokensOf ps)) := by
  cases ps with
  | nil => exact .inl rfl
  | cons p ps =>
    have hspace : ∃ t ts, tokensOf (p :: ps) = t :: ts ∧ t.lead = " " := by
      cases p <;> exact ⟨_, _, rfl, rfl⟩
    obtain ⟨t, ts, htokens, hlead⟩ := hspace
    rw [htokens, Token.layout_cons, hlead]
    exact .inr ⟨_, rfl⟩

/-- **The tokens of what is written.** The text of chunks with single spaces between them is split into the
tokens it was written from. -/
theorem rereads_tokensOf (ps : List Chunk) : Rereads (tokensOf ps) := by
  induction ps with
  | nil => exact rereads_nil
  | cons p ps ih =>
    have hblank := startsBlank_layout ps
    cases p with
    | word w => exact .cons ⟨.inr rfl, rfl⟩ rfl (w.scans rfl rfl hblank) ih
    | mark m => exact .cons ⟨.inr rfl, rfl⟩ rfl (m.scans hblank) ih
    | atName name =>
      -- the name follows its sign at once
      have hname : Rereads (name.attached :: tokensOf ps) :=
        .cons ⟨.inl rfl, rfl⟩ rfl (name.scans rfl rfl hblank) ih
      exact .cons ⟨.inr rfl, rfl⟩ rfl (Mark.scans_atSign _) hname

end SwiftOutline
