import SwiftOutline.Proofs.Grammar.TypeTokens
import SwiftOutline.Proofs.Token.Window

/-!
# `Seam` — text put behind tokens

Where the text of tokens ends, other text may be put behind it. The tokens stay what they are if the
other text begins with a character that no token goes on with: a space, a line feed, a comma, a closing
parenthesis or a colon. An ellipsis may be put behind them as well, if they do not end with a dot.
-/

namespace SwiftOutline

open Token List

/-! ## Seams -/

/-- The text `after` may be put behind `front`. -/
inductive Seam (front : List Char) : List Char → Prop where
  | mark {c : Char} {rest : List Char} (hc : isSeam c = true) (hdot : c ≠ '.') : Seam front (c :: rest)
  | dots {rest : List Char} (hfront : front.getLast? ≠ some '.') : Seam front ('.' :: '.' :: rest)

variable {after cs : List Char} {c : Char} {pos : Nat} {us more : List Token}

/-- Text begins at a seam with a character that no number goes on with. -/
theorem Seam.exists_cons {front : List Char} (h : Seam front after) :
    ∃ c rest, after = c :: rest ∧ isSeam c = true ∧ (c = '.' → rest.head?.any Char.isDigit = false) := by
  cases h with
  | mark hc hdot => exact ⟨_, _, rfl, hc, fun h => absurd h hdot⟩
  | dots _ => exact ⟨'.', _, rfl, by decide, fun _ => rfl⟩

/-- A seam behind a text is one behind the end of the text. -/
theorem Seam.of_append (front : List Char) {back : List Char} (h : Seam (front ++ back) after) :
    Seam back after := by
  cases h with
  | mark hc hdot => exact .mark hc hdot
  | dots hfront =>
    refine .dots fun hback => hfront ?_
    rw [List.getLast?_append, hback, Option.some_or]

/-- Nothing that begins like the text with a seam behind it goes on past the seam, if it has no such
character. -/
theorem isPrefix_of_seam {ds : List Char} (hds : c ∉ ds) (rest : List Char) (h : ds <+: cs ++ c :: rest) :
    ds <+: cs := by
  obtain ⟨es, hes⟩ := h
  rcases append_eq_append_iff.mp hes with ⟨fs, rfl, -⟩ | ⟨fs, rfl, hfs⟩
  · exact prefix_append _ _
  · cases fs with
    | nil =>
      exact ⟨[], by rw [append_nil, append_nil]⟩
    | cons f fs =>
      cases hfs
      exact absurd (mem_append_right _ mem_cons_self) hds

/-- A token does not go on at a seam. -/
theorem Seam.tamer {front : List Char} (h : Seam front after) (before : List Char) :
    Tamer (before ++ after) before := by
  obtain ⟨c, rest, rfl, hc, hdot⟩ := h.exists_cons
  rintro ds (hds | ⟨d, hd, rfl⟩) hstarts
  · refine isPrefix_of_seam (fun hmem => ?_) rest hstarts
    rw [hds c hmem] at hc
    cases hc
  · match before with
    | [] =>
      obtain ⟨es, hes⟩ := hstarts
      cases hes
      exact absurd hd (Bool.eq_false_iff.mp (hdot rfl))
    | [b] =>
      obtain ⟨es, hes⟩ := hstarts
      cases hes
      rcases isSeam_cases hc with rfl | rfl | rfl | rfl | rfl | rfl <;> exact absurd hd (by decide)
    | b :: b' :: bs =>
      obtain ⟨es, hes⟩ := hstarts
      cases hes
      exact ⟨bs, rfl⟩

/-- A long token of punctuation that begins in front of a seam ends in front of it. -/
theorem Seam.puncts (h : Seam (c :: cs) after) {mark : List Char}
    (hmark : mark ∈ longPuncts) (hstarts : mark <+: c :: cs ++ after) : mark <+: c :: cs := by
  cases h with
  | @mark d rest hd hdot =>
    have hseams : ∀ mark ∈ longPuncts, ∀ e ∈ mark, isSeam e = true → e = '.' := by
      simp [longPuncts, isSeam]
    exact isPrefix_of_seam (fun hmem => hdot (hseams mark hmark d hmem hd)) rest hstarts
  | dots hfront =>
    -- only dots could go on there, and then the text in front would end with one
    simp only [longPuncts, mem_cons, not_mem_nil, or_false] at hmark
    obtain ⟨es, hes⟩ := hstarts
    rcases cs with _ | ⟨d, _ | ⟨e, cs⟩⟩ <;> rcases hmark with rfl | rfl | rfl <;> grind

/-- **A token does not hang on what is put behind it at a seam.** -/
theorem scanLexeme_seam {l : Lexeme} (h : scanLexeme pos c cs = .ok l) (hseam : Seam (c :: cs) after) :
    scanLexeme pos c (cs ++ after) = .ok ⟨l.kind, l.text, l.rest ++ after⟩ := by
  have htext := scanLexeme_append h
  have hswap : Swap l.text l.rest (l.rest ++ after) := by
    refine ⟨hseam.tamer l.rest, fun mark hmark hstarts => ?_⟩
    rw [← append_assoc, htext] at hstarts
    rw [htext]
    exact hseam.puncts hmark hstarts
  obtain ⟨ds, hds, hagain⟩ := scanLexeme_swap h hswap
  rw [hds, cons_append] at htext
  rw [← (List.cons.inj htext).2, append_assoc]
  exact hagain

/-- Where a scan of a gap stops at once, no gap begins. -/
theorem stop_of_scanGap (h : scanGap .between pos (c :: cs) = .ok ⟨[], false, c :: cs⟩) :
    Text.isBlank c = false ∧ opensComment (c :: cs) = false := by
  have hpush : ∀ {x : Except LexError Gap} {d : Char} {ds : List Char} {newline : Bool},
      x.map (·.push (d :: ds) newline) ≠ .ok ⟨[], false, c :: cs⟩ := by
    intro x d ds newline hx
    obtain ⟨a, -, ha⟩ := ok_of_map_eq_ok hx
    cases congrArg Gap.text ha
  constructor
  · rw [Bool.eq_false_iff]
    intro hblank
    rw [scanGap_blank hblank] at h
    exact hpush h
  · rw [Bool.eq_false_iff]
    intro hopens
    unfold opensComment at hopens
    split at hopens
    · next heq =>
      cases heq
      exact hpush h
    · next heq =>
      cases heq
      exact hpush h
    · cases hopens

/-- **A gap with a token behind it does not hang on what is put behind the token at a seam.** -/
theorem scanGap_seam {mode : GapMode} {g : Gap} (h : scanGap mode pos cs = .ok g)
    (hrest : g.rest ≠ []) (hseam : Seam cs after) :
    scanGap mode pos (cs ++ after) = .ok ⟨g.text, g.newline, g.rest ++ after⟩ := by
  obtain ⟨text, newline, rest⟩ := g
  obtain ⟨c, ds, rfl⟩ := exists_cons_of_ne_nil hrest
  obtain ⟨hblank, hopens⟩ := stop_of_scanGap (scanGap_rest h (pos + Text.byteSize text) (prefix_refl _))
  -- at the end of the text a slash has a character of the seam behind it
  have hopens' : opensComment (c :: (ds ++ after)) = false := by
    cases ds with
    | nil =>
      obtain ⟨e, rest, rfl, he, -⟩ := hseam.exists_cons
      refine opensComment_eq_false ?_ ?_ <;>
      · intro es _ heq
        cases heq
        cases he
    | cons d ds =>
      refine opensComment_eq_false ?_ ?_ <;>
      · rintro es rfl heq
        cases heq
        cases hopens
  rw [← scanGap_append h, append_assoc, scanGap_swap h (.inl hrest), cons_append,
    scanGap_stop hblank hopens']
  show Except.ok _ = _
  simp only [Gap.push, append_nil, Bool.or_false]

/-! ## Runs of tokens -/

/-- The token with another gap in front of it, which breaks no line. -/
def Token.led (lead : String) (t : Token) : Token := { t with lead := lead, newlineBefore := false }

theorem Token.layout_map_unplaced (ts : List Token) : layout (ts.map unplaced) = layout ts := by
  rw [layout, layout, flatMap_map]
  rfl

theorem Token.layout_unplaced_append (us more : List Token) :
    layout (us.map unplaced ++ more) = layout us ++ layout more := by
  rw [layout_append, layout_map_unplaced]

/-- A token of a source in front of other tokens, behind any gap that ends where the token begins. -/
theorem rereads_cons {rest : List Char} {lexeme : Lexeme}
    (hlexeme : scanLexeme pos c rest = .ok lexeme) (hlayout : layout us <+: lexeme.rest)
    (hseam : Seam (lexeme.text ++ layout us) (layout more)) (hus : Rereads (us.map unplaced ++ more))
    {lead : List Char} {newline : Bool}
    (hlead : ∀ pos, scanGap .between pos (lead ++ (lexeme.text ++ layout us ++ layout more)) =
      .ok ⟨lead, newline, lexeme.text ++ layout us ++ layout more⟩) :
    Rereads (⟨lexeme.kind, String.ofList lead, String.ofList lexeme.text, 0, newline⟩ ::
      (us.map unplaced ++ more)) := by
  intro pos'
  obtain ⟨ts, hts, hmap⟩ := hus (pos' + Text.byteSize lead + Text.byteSize lexeme.text)
  obtain ⟨es, hes, hcut⟩ := scanLexeme_cut hlexeme (pos' + Text.byteSize lead) hlayout
  rw [hes, cons_append] at hseam
  have hscan := scanLexeme_seam hcut hseam
  have hcons : lexeme.text ++ layout us ++ layout more =
      c :: (es ++ layout us ++ layout more) := by
    rw [hes, cons_append, cons_append]
  rw [Token.layout_unplaced_append] at hts
  have hfirst := tokensFrom_of_gap (hlead pos') hcons hscan hts
  rw [layout_cons, String.toList_ofList, String.toList_ofList, Token.layout_unplaced_append,
    ← append_assoc lexeme.text]
  refine ⟨_, hfirst, ?_⟩
  rw [List.map_cons, hmap]
  rfl

/-- Where the text from a token on stands behind a seam, no gap begins. -/
theorem scanGap_token {gap : Gap} (hgap : scanGap .between pos cs = .ok gap) {text : List Char}
    (hstarts : text <+: gap.rest) (hne : text ≠ []) (hseam : Seam text after) {lead : String}
    (hlead : lead = "" ∨ lead = " ") (pos' : Nat) :
    scanGap .between pos' (lead.toList ++ (text ++ after)) = .ok ⟨lead.toList, false, text ++ after⟩ := by
  have hstop (pos : Nat) : scanGap .between pos (text ++ after) = .ok ⟨[], false, text ++ after⟩ :=
    scanGap_seam (scanGap_rest hgap pos hstarts) hne hseam
  rcases hlead with rfl | rfl
  · exact hstop pos'
  · show scanGap .between pos' (' ' :: (text ++ after)) = _
    rw [scanGap_blank (by decide), hstop]
    rfl

/-- Tokens of a source with their own gaps, in front of other tokens. -/
theorem rereads_tail {vs : List Token} (h : tokensFrom pos cs = .ok (us ++ vs)) (hmore : Rereads more)
    (hseam : Seam (layout us) (layout more)) : Rereads (us.map unplaced ++ more) := by
  induction us generalizing pos cs with
  | nil => exact hmore
  | cons t us ih =>
    obtain ⟨gap, c, rest, lexeme, hgap, hrest, hlexeme, htail, rfl⟩ := tokensFrom_cons h
    rw [layout_cons, String.toList_ofList, String.toList_ofList] at hseam
    have hlayout := layout_of_tokensFrom htail
    have hstarts := isPrefix_rest_of_scanLexeme hrest hlexeme hlayout
    have hne : lexeme.text ++ layout us ≠ [] :=
      append_ne_nil_of_left_ne_nil (scanLexeme_text_ne_nil hlexeme) _
    refine rereads_cons hlexeme hlayout (hseam.of_append _)
      (ih htail ((hseam.of_append _).of_append _)) fun pos' => ?_
    have hcut := scanGap_cut hgap pos' hstarts
    rw [← append_assoc]
    exact scanGap_seam hcut hne hseam

/-- **A run of tokens of a source** is split off in front of other tokens, behind another gap than its
own, if their text may be put behind it. -/
theorem rereads_run {t : Token} {vs : List Token} (h : tokensFrom pos cs = .ok (t :: us ++ vs))
    (hmore : Rereads more) (hseam : Seam (t.text.toList ++ layout us) (layout more)) {lead : String}
    (hlead : lead = "" ∨ lead = " ") : Rereads ((t.led lead :: us).map unplaced ++ more) := by
  obtain ⟨gap, c, rest, lexeme, hgap, hrest, hlexeme, htail, rfl⟩ := tokensFrom_cons h
  rw [String.toList_ofList] at hseam
  have hlayout := layout_of_tokensFrom htail
  have hstarts := isPrefix_rest_of_scanLexeme hrest hlexeme hlayout
  have hne : lexeme.text ++ layout us ≠ [] :=
    append_ne_nil_of_left_ne_nil (scanLexeme_text_ne_nil hlexeme) _
  have hus := rereads_tail htail hmore (hseam.of_append _)
  have hfirst := rereads_cons hlexeme hlayout hseam hus (scanGap_token hgap hstarts hne hseam hlead)
  rwa [String.ofList_toList] at hfirst

end SwiftOutline
