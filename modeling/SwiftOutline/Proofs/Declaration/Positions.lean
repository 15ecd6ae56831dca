import SwiftOutline.Proofs.Declaration.Ownership
import SwiftOutline.Proofs.Text.Position
import SwiftOutline.Proofs.Token.Window

/-!
# `Positions` — where the records of an outline are

A record says where its declaration is in two ways, by a span of bytes and by two places with line and
column. The span is that of the tokens of the declaration's node. It is a slice of the source that begins
with the first of these tokens and ends with the last, and the two places are those of its ends, as they
are found by reading the source from its start.
-/

namespace SwiftOutline

open SwiftOutline.Tree List

/-! ## The first token of a declaration -/

/-- The token opens a declaration: it is the sign of an attribute, a modifier, a keyword or the directive
`#if`. -/
def Token.opensDeclaration (t : Token) : Bool :=
  t.kind == .atSign || (t.isWord && (modifierWords.contains t.text || declarationKeywords.contains t.text)) ||
    t.text == "#if"

/-- A declaration that is found begins with an attribute, a modifier or its keyword. -/
theorem opensDeclaration_of_declarationStart? {ts start : List Token}
    (h : declarationStart? ts = some start) : ts.head?.any Token.opensDeclaration = true := by
  obtain ⟨mid, hmid, rfl, hsees⟩ := declarationStart?_eq_some h
  cases ts with
  | nil =>
    rw [afterAttributes?_of_not rfl] at hmid
    cases hmid
    rw [afterModifiers_of_none rfl] at hsees
    cases hsees
  | cons t ts =>
    show t.opensDeclaration = true
    unfold Token.opensDeclaration
    cases hsign : seesKind .atSign (t :: ts) with
    | true =>
      rw [show (t.kind == .atSign) = true from hsign]
      rfl
    | false =>
      rw [afterAttributes?_of_not hsign] at hmid
      cases hmid
      cases hlength : modifierLength? (t :: ts) with
      | some n =>
        have hword : seesModifierWord (t :: ts) = true := by
          cases hword : seesModifierWord (t :: ts) with
          | true => rfl
          | false =>
            rw [modifierLength?_eq_none.mpr (.inl hword)] at hlength
            cases hlength
        obtain ⟨hword, hmodifier⟩ := Bool.and_eq_true_iff.mp hword
        rw [show t.isWord = true from hword, show modifierWords.contains t.text = true from hmodifier]
        simp
      | none =>
        rw [afterModifiers_of_none hlength] at hsees
        have hkeyword : (t.isWord && declarationKeywords.contains t.text) = true :=
          (Bool.and_eq_true_iff.mp hsees).1
        rw [Bool.and_eq_true] at hkeyword
        rw [hkeyword.1, hkeyword.2]
        simp

/-- **A declaration begins with an attribute, a modifier, its keyword or `#if`.** -/
theorem opensDeclaration_of_item {n : Nat} {ts rest : List Token} {kind : NodeKind} {cs : List Tree}
    (hkind : kind.isDecl = true) (h : Rule.item n ts = .ok ([.node kind cs], rest)) :
    ts.head?.any Token.opensDeclaration = true := by
  cases n with
  | zero => cases h
  | succ n =>
    have hbody : Rule.itemBody (Rule.type n) (Rule.item n) ts = .ok ([.node kind cs], rest) := h
    cases hsemi : sees ";" ts with
    | true =>
      -- a semicolon is no node
      rw [Rule.itemBody_semicolon hsemi] at hbody
      obtain ⟨hrun, -⟩ := Rule.bumps_eq_ok hbody
      cases ts <;> cases hrun
    | false =>
      cases hif : sees "#if" ts with
      | true =>
        obtain ⟨t, ts, rfl⟩ := (Lookahead.ofHead_sees "#if").exists_cons hif
        show t.opensDeclaration = true
        unfold Token.opensDeclaration
        rw [show (t.text == "#if") = true from hif, Bool.or_true]
      | false =>
        cases hstart : declarationStart? ts with
        | some start => exact opensDeclaration_of_declarationStart? hstart
        | none =>
          rw [Rule.itemBody_statement hsemi hif hstart] at hbody
          obtain ⟨ds, hds⟩ := Rule.statement_eq_ok hbody
          cases hds
          cases hkind

variable {source : String}

/-- The first token of a declaration's node opens a declaration. -/
theorem Tree.Declares.opensDeclaration {t : Tree} (h : t.Declares source) {first : Token}
    {rest : List Token} (htokens : t.tokens = first :: rest) : first.opensDeclaration = true := by
  obtain ⟨kind, cs, rfl, hkind⟩ := h.exists_node
  obtain ⟨n, -, ts, after, -, hok⟩ := h.isPart.every.here.declaration hkind
  have hopens := opensDeclaration_of_item hkind hok
  have hkeeps := (Rule.lawful_item n).keeps hok
  rw [forestTokens_singleton, htokens] at hkeeps
  rw [← hkeeps] at hopens
  exact hopens

/-! ## Places -/

/-- The place of an offset, by reading the source from its start. -/
def Location.reading (source : String) (offset : Nat) : Location :=
  ⟨some (Text.positionAt source offset).1, some (Text.positionAt source offset).2, offset⟩

/-- **Both look-ups of a place agree** between two characters. -/
theorem LineIndex.location_eq_reading {offset : Nat} (h : Text.IsBoundary source.toList offset) :
    (ofSource source).location offset = Location.reading source offset := by
  obtain ⟨a, b, hsplit, rfl⟩ := h
  rw [location_append hsplit, Location.reading, Text.positionAt_append hsplit]

theorem Text.positionAt_lt {offset : Nat} (h : IsBoundary source.toList offset) :
    (positionAt source offset).1 < UInt32.size ∧ (positionAt source offset).2 < UInt32.size := by
  obtain ⟨a, b, hsplit, rfl⟩ := h
  rw [positionAt_append hsplit]
  exact ⟨ordinal_lt _, ordinal_lt _⟩

/-- The place behind the characters that a text starts with, by counting lines and columns without a bound. -/
def Location.behind (cs : List Char) : Location :=
  ⟨some (cs.count '\n' + 1), some ((Text.lastLine cs).length + 1), Text.byteSize cs⟩

/-- In a short text no count is lost. -/
theorem LineIndex.location_of_short (hshort : source.length < UInt32.size - 1) {a b : List Char}
    (hsplit : source.toList = a ++ b) : (ofSource source).location (Text.byteSize a) = .behind a := by
  rw [location_append hsplit, Text.positionAfter_of_short, Location.behind]
  rw [← String.length_toList, hsplit, length_append] at hshort
  omega

/-- The first position comes before the second: on an earlier line, or in an earlier column of the same
line. -/
def Location.Precedes (l m : Location) : Prop :=
  ∃ line column line' column', l.line = some line ∧ l.column = some column ∧ m.line = some line' ∧
    m.column = some column' ∧ (line < line' ∨ line = line' ∧ column < column')

theorem Location.Precedes.column_ne {l m : Location} (h : l.Precedes m) (heq : l.line = m.line) :
    l.column ≠ m.column := by
  obtain ⟨line, column, line', column', hline, hcolumn, hline', hcolumn', hlt⟩ := h
  rw [hline, hline', Option.some.injEq] at heq
  rw [hcolumn, hcolumn', ne_eq, Option.some.injEq]
  omega

theorem LineIndex.precedes_location {source : String} (hshort : source.length < UInt32.size - 1) {m n : Nat}
    (hm : Text.IsBoundary source.toList m) (hn : Text.IsBoundary source.toList n) (hlt : m < n) :
    ((ofSource source).location m).Precedes ((ofSource source).location n) := by
  obtain ⟨a, b, c, hsplit, rfl, rfl, hb⟩ := hm.exists_append hn hlt
  rw [location_append (hsplit.trans (append_assoc ..)), location_append hsplit]
  rw [← String.length_toList, hsplit, length_append] at hshort
  exact ⟨_, _, _, _, rfl, rfl, rfl, rfl, Text.positionAfter_append (by omega) hb⟩

/-! ## Headers -/

/-- **What is reported of a declaration's place holds of the source**, where `run` are the declaration's
tokens. -/
structure Header.Faithful (source : String) (run : List Token) (h : Header) : Prop where
  nonempty : h.span.start < h.span.stop
  bounded : h.span.stop ≤ source.utf8ByteSize
  boundaries : Text.IsBoundary source.toList h.span.start ∧ Text.IsBoundary source.toList h.span.stop
  /-- The text in the span goes from the first character of the first token to the last one of the last. -/
  text : ∃ first last text, run.head? = some first ∧ run.getLast? = some last ∧
    first.opensDeclaration = true ∧
    h.span = ⟨first.start, last.stop⟩ ∧ Text.slice? source.toList h.span = some text ∧
    first.text.toList <+: text ∧ last.text.toList <:+ text
  places : h.startLocation = .reading source h.span.start ∧ h.endLocation = .reading source h.span.stop
  reported : h.startLocation.isEmpty = false ∧ h.endLocation.isEmpty = false
  /-- In a source of fewer than `2 ^ 32 - 1` characters all lines and columns fit into 32 bits. -/
  narrow : source.length < UInt32.size - 1 →
    ∀ n ∈ [h.startLocation.line, h.startLocation.column, h.endLocation.line, h.endLocation.column],
      ∃ m < UInt32.size, n = some m
  /-- There both places are those that counting finds. -/
  counted : source.length < UInt32.size - 1 → ∃ before text after, source.toList = before ++ text ++ after ∧
    h.startLocation = .behind before ∧ h.endLocation = .behind (before ++ text)

namespace Token

theorem isSuffix_joined {ts : List Token} {last : Token} (h : ts.getLast? = some last) :
    last.text.toList <:+ (joined ts).toList := by
  obtain ⟨front, rfl⟩ := List.getLast?_eq_some_iff.mp h
  cases front with
  | nil => exact ⟨[], by rw [nil_append, nil_append, toList_joined]; simp [layout]⟩
  | cons t front =>
    rw [cons_append, toList_joined, layout_append, layout_cons]
    refine ⟨t.text.toList ++ (layout front ++ last.lead.toList), ?_⟩
    simp [layout]

end Token

/-- The place of a declaration's node, with lines and columns, is faithful. -/
theorem faithful_located {t : Tree} (ht : t.Declares source) {h : Header} (hspan : h.span = t.span) :
    (h.located source).Faithful source t.tokens := by
  obtain ⟨tokens, htokens, before, after, hin⟩ := ht.isPart.tokens
  obtain ⟨first, rest, hrun⟩ := exists_cons_of_ne_nil ht.tokens_ne_nil
  obtain ⟨last, hlast⟩ : ∃ last, (first :: rest).getLast? = some last :=
    ⟨_, List.getLast?_eq_some_getLast (cons_ne_nil first rest)⟩
  have hends : t.span = ⟨first.start, last.stop⟩ := by
    rw [Tree.span, hrun, Token.spanOf, hlast]
    rfl
  have hslice : Text.slice? source.toList t.span = some (Token.joined t.tokens).toList := by
    rw [← hin, append_assoc, hrun] at htokens
    rw [hends, hrun]
    exact slice?_window htokens hlast
  have hnonempty := ht.ordered.start_lt_stop ht.tokens_ne_nil
  -- a slice has its two ends between characters
  obtain ⟨a, b, hsplit, hstart, hstop⟩ := Text.slice?_eq_some hslice
  have hboundary : Text.IsBoundary source.toList t.span.start := ⟨a, _, hsplit, hstart⟩
  have hboundary' : Text.IsBoundary source.toList t.span.stop := by
    refine ⟨a ++ (Token.joined t.tokens).toList, b, ?_, ?_⟩
    · rw [hsplit, append_assoc]
    · rw [Text.byteSize_append, hstop]
  have hplaces : (h.located source).startLocation = .reading source t.span.start ∧
      (h.located source).endLocation = .reading source t.span.stop := by
    constructor
    · rw [← LineIndex.location_eq_reading hboundary, ← hspan]
      rfl
    · rw [← LineIndex.location_eq_reading hboundary', ← hspan]
      rfl
  have hspan' : (h.located source).span = t.span := hspan
  refine ⟨?_, ?_, ?_, ?_, ?_, ?_, ?_, ?_⟩
  · rw [hspan']
    exact hnonempty
  · rw [hspan', ← Text.byteSize_toList]
    exact hboundary'.le
  · rw [hspan']
    exact ⟨hboundary, hboundary'⟩
  · rw [hspan', hrun]
    refine ⟨first, last, _, rfl, hlast, ht.opensDeclaration hrun, hends, hslice, ?_, ?_⟩
    · rw [hrun, Token.toList_joined]
      exact prefix_append _ _
    · rw [hrun]
      exact Token.isSuffix_joined hlast
  · rw [hspan']
    exact hplaces
  · rw [hplaces.1, hplaces.2]
    exact ⟨rfl, rfl⟩
  · intro hshort n hn
    rw [hplaces.1, hplaces.2] at hn
    have hlt := Text.positionAt_lt hboundary
    have hlt' := Text.positionAt_lt hboundary'
    simp only [Location.reading, mem_cons, not_mem_nil, or_false] at hn
    rcases hn with rfl | rfl | rfl | rfl
    exacts [⟨_, hlt.1, rfl⟩, ⟨_, hlt.2, rfl⟩, ⟨_, hlt'.1, rfl⟩, ⟨_, hlt'.2, rfl⟩]
  · intro hshort
    have hsplit' := hsplit.trans (append_assoc ..).symm
    refine ⟨a, (Token.joined t.tokens).toList, b, hsplit', ?_, ?_⟩
    · rw [← LineIndex.location_of_short hshort hsplit, hstart, ← hspan]
      rfl
    · rw [← LineIndex.location_of_short hshort hsplit', Text.byteSize_append, hstop, ← hspan]
      rfl

/-- A record of an outline is faithful to the declaration that it has its header from. -/
theorem faithful_of_mem_locate {source : String} {tree : Tree} (hparse : parseSource source = .ok tree)
    {k : DeclarationKind} {h : Header} (hh : h ∈ ((Place.root tree).collect.locate (some source)).headers k) :
    ∃ p ∈ Place.reachable tree, ∃ d ∈ p.declarations, h = d.header.located source ∧
      h.Faithful source p.tree.tokens := by
  obtain ⟨p, hp, d, hd, rfl⟩ := exists_declaration_of_mem_locate hh
  refine ⟨p, hp, d, hd, rfl, ?_⟩
  have hdeclares := Place.declares_of_reachable (isPart_of_parseSource hparse) hp
      (Place.isDecl_of_mem_declarations hd)
  exact faithful_located hdeclares (Place.header_of_mem_declarations hd).1

/-- The header is that of a reachable declaration in the tree of the source, and faithful to its tokens. -/
def Header.FaithfulIn (h : Header) (source : String) : Prop :=
  ∃ tree, parseSource source = .ok tree ∧ ∃ p ∈ Place.reachable tree, ∃ d ∈ p.declarations,
    h = d.header.located source ∧ h.Faithful source p.tree.tokens

/-- **Reported positions are faithful.** Each header of an outline belongs to a declaration in the tree
    of the source, and what it says of the place of this declaration holds of the source: its span is the
    slice from the first token of the declaration to the last, and its two places are those that reading
    the source from its start finds for the ends of the span. -/
theorem positions_faithful {source : String} {o : Outline} (ho : outlineOf source = .ok o)
    {k : DeclarationKind} {h : Header} (hh : h ∈ o.headers k) : h.FaithfulIn source := by
  obtain ⟨tree, hparse, rfl⟩ := ok_of_map_eq_ok ho
  exact ⟨tree, hparse, faithful_of_mem_locate hparse hh⟩

/-- A method behind a comment with letters of two bytes and an attribute of its own. -/
theorem positions_faithful_method : ∃ source o,
    source = "/* äö */ struct S \x7b\n  /* ü */ @objc func f() \x7b\x7d\n\x7d" ∧ outlineOf source = .ok o ∧
    ∃ h ∈ o.headers .function, h.FaithfulIn source ∧ h.span = ⟨33, 50⟩ ∧
      h.startLocation = ⟨some 2, some 11, 33⟩ ∧ h.endLocation = ⟨some 2, some 28, 50⟩ := by
  refine (exists_ok_of_test (P := fun o : Outline => ∃ h ∈ o.headers .function, h.span = ⟨33, 50⟩ ∧
    h.startLocation = ⟨some 2, some 11, 33⟩ ∧ h.endLocation = ⟨some 2, some 28, 50⟩) (by decide +kernel)).elim
    fun o ho => ⟨_, o, rfl, ho.1, ?_⟩
  obtain ⟨h, hh, hplaces⟩ := ho.2
  exact ⟨h, hh, positions_faithful ho.1 hh, hplaces⟩

/-- **Positions identify offsets.** In a source of fewer than `2 ^ 32 - 1` characters all lines and
    columns fit into 32 bits, later offsets have later positions and so different ones, and each record
    starts before it ends. -/
theorem positions_identify_offsets {source : String} (hsize : source.length < UInt32.size - 1) :
    (∀ n, Text.IsBoundary source.toList n → ∃ line < UInt32.size, ∃ column < UInt32.size,
      (LineIndex.ofSource source).location n = ⟨some line, some column, n⟩) ∧
    (∀ m n, Text.IsBoundary source.toList m → Text.IsBoundary source.toList n → m < n →
      ((LineIndex.ofSource source).location m).Precedes ((LineIndex.ofSource source).location n)) ∧
    (∀ m n, Text.IsBoundary source.toList m → Text.IsBoundary source.toList n →
      ((LineIndex.ofSource source).location m).line = ((LineIndex.ofSource source).location n).line →
      ((LineIndex.ofSource source).location m).column =
        ((LineIndex.ofSource source).location n).column → m = n) ∧
    ∀ o, outlineOf source = .ok o → ∀ k, ∀ h ∈ o.headers k, h.startLocation.Precedes h.endLocation := by
  refine ⟨?_, fun m n => LineIndex.precedes_location hsize, ?_, ?_⟩
  · rintro n ⟨a, b, hsplit, rfl⟩
    exact ⟨_, Text.ordinal_lt _, _, Text.ordinal_lt _, LineIndex.location_append hsplit⟩
  · intro m n hm hn hline hcolumn
    rcases Nat.lt_trichotomy m n with hlt | rfl | hlt
    · exact absurd hcolumn ((LineIndex.precedes_location hsize hm hn hlt).column_ne hline)
    · rfl
    · exact absurd hcolumn.symm ((LineIndex.precedes_location hsize hn hm hlt).column_ne hline.symm)
  · intro o ho k h hh
    obtain ⟨tree, hparse, rfl⟩ := ok_of_map_eq_ok ho
    obtain ⟨p, -, -, -, -, hfaithful⟩ := faithful_of_mem_locate hparse hh
    obtain ⟨hstart, hstop⟩ := hfaithful.boundaries
    rw [hfaithful.places.1, hfaithful.places.2, ← LineIndex.location_eq_reading hstart,
      ← LineIndex.location_eq_reading hstop]
    exact LineIndex.precedes_location hsize hstart hstop hfaithful.nonempty

/-- The line break is on the first line still, and the letter behind it is the first of the second line. -/
theorem positions_identify_offsets_two_lines :
    "a\nb".length < UInt32.size - 1 ∧
      ((LineIndex.ofSource "a\nb").location 1).Precedes ((LineIndex.ofSource "a\nb").location 2) := by
  have hshort : "a\nb".length < UInt32.size - 1 := by decide
  refine ⟨hshort, (positions_identify_offsets hshort).2.1 1 2 ?_ ?_ (by decide)⟩
  · exact ⟨['a'], ['\n', 'b'], rfl, rfl⟩
  · exact ⟨['a', '\n'], ['b'], rfl, rfl⟩

end SwiftOutline
