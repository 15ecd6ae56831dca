import SwiftOutline.Proofs.Declaration.Positions
import SwiftOutline.Proofs.Declaration.SelfContained
import SwiftOutline.Proofs.Descriptor.Restated
import SwiftOutline.Proofs.Grammar.Conditional

/-!
# `Transparent` — conditional compilation and outlines

Between `#if DEBUG` and `#endif` a source keeps its records. The walk comes to them below one node more,
which owns nothing, and each of them stands one line and some bytes further on. The node itself is
recorded in front of them.
-/

namespace SwiftOutline

open SwiftOutline.Tree List

/-! ## Places further on -/

/-- The span in a text that stands `base` bytes further on. -/
def Span.shiftUp (base : Nat) (s : Span) : Span := ⟨s.start + base, s.stop + base⟩

/-- The place in a text with whole lines put in front of it, which have `bytes` bytes. -/
def Location.shiftUp (bytes lines : Nat) (l : Location) : Location :=
  ⟨l.line.map fun n => (n + lines) % UInt32.size, l.column, l.offset + bytes⟩

/-- The header of a declaration in a text with whole lines put in front of it. -/
def Header.shiftUp (bytes lines : Nat) (h : Header) : Header :=
  { h with
    span := h.span.shiftUp bytes
    startLocation := h.startLocation.shiftUp bytes lines
    endLocation := h.endLocation.shiftUp bytes lines }

/-- A whole line in front of a text moves its end to the next line, and to no other column. -/
theorem Text.positionAfter_line {line : List Char} (hline : '\n' ∉ line) (cs : List Char) :
    positionAfter (line ++ '\n' :: cs) = (ordinal (positionAfter cs).1, (positionAfter cs).2) := by
  rw [positionAfter, positionAfter, lastLine_append_newline, count_append, count_eq_zero.mpr hline,
    count_cons_self, Nat.zero_add, ordinal_ordinal]

/-- The places of a source, as they are between directives. -/
theorem location_enclosed {source : String} {offset : Nat} (h : Text.IsBoundary source.toList offset) :
    (LineIndex.ofSource ("#if DEBUG\n" ++ source ++ "\n#endif")).location (offset + 10) =
      ((LineIndex.ofSource source).location offset).shiftUp 10 1 := by
  obtain ⟨a, b, hsplit, rfl⟩ := h
  have henclosed : ("#if DEBUG\n" ++ source ++ "\n#endif").toList =
      ("#if DEBUG".toList ++ '\n' :: a) ++ (b ++ "\n#endif".toList) := by
    rw [String.toList_append, String.toList_append, hsplit]
    simp
  have hbytes : Text.byteSize a + 10 = Text.byteSize ("#if DEBUG".toList ++ '\n' :: a) := by
    rw [show "#if DEBUG".toList ++ '\n' :: a = "#if DEBUG\n".toList ++ a from rfl,
      Text.byteSize_append, Nat.add_comm]
    rfl
  rw [hbytes, LineIndex.location_append henclosed, LineIndex.location_append hsplit,
    Text.positionAfter_line (by decide), ← hbytes]
  rfl

/-- A run of tokens that goes on takes its span along. -/
theorem Token.Enclosing.spanOf_map {base : Nat} {ts us : List Token} {g : Token → Token}
    (hg : Enclosing base ts g) (hus : us ≠ []) : spanOf (us.map g) = (spanOf us).shiftUp base := by
  have hstop : ((us.getLast hus).start + base) + (us.getLast hus).text.utf8ByteSize =
      (us.getLast hus).start + (us.getLast hus).text.utf8ByteSize + base := Nat.add_right_comm _ _ _
  rw [spanOf_eq (by simpa using hus), spanOf_eq hus, head_map, getLast_map,
    stop, hg.start, hg.start, hg.text, hstop]
  rfl

/-! ## Records -/

namespace Place

/-- The records of some trees that have no container around them, with the tokens changed by `g`. -/
def recordsUnder (g : Token → Token) (f : List Tree) : List Declaration :=
  f.flatMap fun c => ((root c).visited collectPolicy).flatMap fun r =>
    r.declarations.map (Declaration.mapHeader (Header.placed r.owner? (Token.spanOf (r.tree.tokens.map g))))

variable {g : Token → Token} {f : List Tree}

theorem flatMap_visited_relabel (hg : Token.Faithful g (forestTokens f))
    (above : List Tree) (habove : ∀ c, owner? ⟨c, above⟩ = none) :
    ((f.map (relabel g)).flatMap fun c => visited collectPolicy ⟨c, above⟩).flatMap declarations =
      recordsUnder g f := by
  rw [recordsUnder, flatMap_map, flatMap_assoc, flatMap_def, flatMap_def]
  congr 1
  refine map_congr_left ?_
  intro c hc
  rw [← moved_root, visited_moved collectPolicy_ne_halt (collectPolicy_moved g above),
    flatMap_declarations_moved (hg.of_isInfix (tokens_isInfix_of_mem hc))]
  simp only [habove, Option.or_none]

/-- What a walk enters from a node that it goes into. -/
theorem visited_descend {k : NodeKind} {cs above : List Tree}
    (h : collectPolicy ⟨.node k cs, above⟩ = .descend) : visited collectPolicy ⟨.node k cs, above⟩ =
      ⟨.node k cs, above⟩ :: cs.flatMap fun c => visited collectPolicy ⟨c, .node k cs :: above⟩ := by
  rw [visited_node collectPolicy_ne_halt, if_pos h]

/-- A walk enters a node that it does not go into, and nothing below it. -/
theorem visited_prune {k : NodeKind} {cs above : List Tree} (h : collectPolicy ⟨.node k cs, above⟩ = .prune) :
    visited collectPolicy ⟨.node k cs, above⟩ = [⟨.node k cs, above⟩] := by
  rw [visited_node collectPolicy_ne_halt, h, if_neg (by decide)]

theorem collect_file (f : List Tree) :
    (root (.node .sourceFile f)).collect = .ofDeclarations (recordsUnder id f) := by
  have hwalk := flatMap_visited_relabel (Token.faithful_id (forestTokens f)) [.node .sourceFile f]
    fun _ => rfl
  rw [relabelForest_id] at hwalk
  rw [collect, root, visited_descend rfl, flatMap_cons, hwalk]
  rfl

/-- The records of a clause are those of its items. -/
theorem flatMap_visited_clause (opening condition : Token) (f above : List Tree) :
    (visited collectPolicy ⟨.node .ifConfigClause
        (.token opening :: .node .ifConfigCondition [.token condition] :: f), above⟩).flatMap declarations =
      (f.flatMap fun c => visited collectPolicy ⟨c, .node .ifConfigClause
        (.token opening :: .node .ifConfigCondition [.token condition] :: f) :: above⟩).flatMap
          declarations := by
  have hcondition (up : List Tree) : (visited collectPolicy
      ⟨.node .ifConfigCondition [.token condition], up⟩).flatMap declarations = [] := by
    rw [visited_prune rfl]
    rfl
  rw [visited_descend rfl, flatMap_cons, flatMap_cons, flatMap_cons,
    visited_token, nil_append, flatMap_append, hcondition]
  rfl

/-- **The records of conditional compilation**: its own, and those of its items. -/
theorem collect_conditional {opening condition closing : Token} {t : Tree}
    (hg : Token.Faithful g (forestTokens f))
    (ht : t = Rule.conditionalTree opening condition closing (f.map (relabel g))) :
    (root (.node .sourceFile [t])).collect =
      .ofDeclarations (.conditional
        (conditionalRecord ⟨t, [.node .sourceFile [t]]⟩) :: recordsUnder g f) := by
  have hwalk : (visited collectPolicy ⟨t, [.node .sourceFile [t]]⟩).flatMap declarations =
      .conditional (conditionalRecord ⟨t, [.node .sourceFile [t]]⟩) :: recordsUnder g f := by
    rw [ht, Rule.conditionalTree, visited_descend rfl, flatMap_cons, flatMap_cons,
      flatMap_singleton, visited_token, append_nil, flatMap_visited_clause,
        flatMap_visited_relabel hg _ fun _ => rfl]
    rfl
  rw [collect, visited_sourceFile, flatMap_cons, hwalk]
  rfl

/-! ## Records between directives -/

/-- What is reported of a declaration between directives. -/
theorem located_enclosed {source : String} {t : Tree} (ht : t.Declares source) {ts : List Token}
    (hg : Token.Enclosing 10 ts g) (owner : Option Owner) (h : Header) :
    (h.placed owner (Token.spanOf (t.tokens.map g))).located ("#if DEBUG\n" ++ source ++ "\n#endif") =
      ((h.placed owner (Token.spanOf (t.tokens.map id))).located source).shiftUp 10 1 := by
  have hspan : (h.placed owner t.span).span = t.span := rfl
  obtain ⟨hstart, hstop⟩ := (faithful_located ht hspan).boundaries
  rw [hg.spanOf_map ht.tokens_ne_nil, map_id]
  have hstart' := location_enclosed hstart
  have hstop' := location_enclosed hstop
  simp only [Header.located, Header.shiftUp, Header.mk.injEq]
  exact ⟨rfl, rfl, rfl, rfl, rfl, rfl, hstart', hstop'⟩

theorem recordsUnder_enclosed {source : String} {ts : List Token}
    (hf : ∀ c ∈ f, c.IsPart source) (hg : Token.Enclosing 10 ts g) :
    (recordsUnder g f).map (Declaration.mapHeader (Header.located ("#if DEBUG\n" ++ source ++ "\n#endif"))) =
      ((recordsUnder id f).map (Declaration.mapHeader (Header.located source))).map
        (Declaration.mapHeader (Header.shiftUp 10 1)) := by
  simp only [recordsUnder, map_flatMap, map_map]
  -- tree by tree, place by place and record by record, down to the headers
  rw [flatMap_def, flatMap_def]
  congr 1
  refine map_congr_left ?_
  intro c hc
  rw [flatMap_def, flatMap_def]
  congr 1
  refine map_congr_left ?_
  intro r hr
  refine map_congr_left ?_
  intro d hd
  have hdeclares := declares_of_visited (hf c hc) hr (isDecl_of_mem_declarations hd)
  simp only [Function.comp, Declaration.mapHeader_mapHeader]
  exact Declaration.mapHeader_congr (located_enclosed hdeclares hg r.owner? d.header)

end Place

/-! ## Outlines -/

/-- The brackets of the source are nested by kind. -/
def BracketsNested (source : String) : Prop := ∃ ts, tokenize source = .ok ts ∧ bracketsMatch [] ts = true

/-- The source is read without going deeper than so many levels. With `nestingLimit` levels this is
`parseSource`. -/
def ReadsWithin (levels : Nat) (source : String) : Prop :=
  ∃ tree, parseWith .sourceFile (Rule.many (fun ts => !seesEnd ts) (Rule.item levels)) source = .ok tree

theorem ReadsWithin.items {levels : Nat} {source : String} (h : ReadsWithin levels source) {ts : List Token}
    (htokens : tokenize source = .ok ts) :
    ∃ f, Rule.many (fun ts => !seesEnd ts) (Rule.item levels) ts = .ok (f, []) := by
  obtain ⟨tree, htree⟩ := h
  simp only [parseWith, htokens] at htree
  split at htree
  · cases htree
  · next f rest hok =>
    cases Rule.rest_of_items hok
    exact ⟨f, hok⟩

/-- Between directives the source has the outline `o`, as it stands one line further on, and in front of
its blocks one for the directives, which has no owner. -/
def Outline.EnclosedIn (o : Outline) (source : String) : Prop :=
  ∃ block : ConditionalRecord, block.clauses = ["#if DEBUG"] ∧ block.header.owner = none ∧
    outlineOf ("#if DEBUG\n" ++ source ++ "\n#endif") =
      .ok { o.mapHeaders (Header.shiftUp "#if DEBUG\n".utf8ByteSize 1) with
        conditionalBlocks :=
          block :: (o.mapHeaders (Header.shiftUp "#if DEBUG\n".utf8ByteSize 1)).conditionalBlocks }

/-- **Conditional compilation is transparent.** A source whose brackets match and that leaves a level of
nesting has an outline between directives too, which is its own but for the block of the directives. -/
theorem conditional_transparent {source : String} {o : Outline} (ho : outlineOf source = .ok o)
    (hbrackets : BracketsNested source) (hlevels : ReadsWithin (nestingLimit - 1) source) :
    o.EnclosedIn source := by
  obtain ⟨ts, htokens, hmatch⟩ := hbrackets
  obtain ⟨f, hitems⟩ := hlevels.items htokens
  have hparse := Rule.parseSource_of_items (Nat.sub_le _ _) htokens hitems
  obtain ⟨g, e, hg, henclosed⟩ := Rule.parseSource_enclosed htokens hmatch hitems
  -- the items hold all tokens of the source, so the change keeps the gaps inside each of them
  have hforest : forestTokens f = ts := by
    have hkeeps := ((Rule.lawful_item (nestingLimit - 1)).many Lookahead.natural_seesEnd.not).keeps hitems
    rwa [append_nil] at hkeeps
  have hparts : ∀ c ∈ f, c.IsPart source :=
    fun c hc => (isPart_of_parseSource hparse).contains (.child .self hc)
  have hfaithful : Token.Faithful g (forestTokens f) := hforest ▸ hg.faithful
  rw [outlineOf, hparse] at ho
  obtain rfl : (Place.root (.node .sourceFile f)).collect.locate (some source) = o := Except.ok.inj ho
  rw [Outline.EnclosedIn, outlineOf, henclosed, Except.map,
    Place.collect_conditional hfaithful rfl, Place.collect_file, Outline.locate_some, Outline.locate_some,
    Outline.mapHeaders_ofDeclarations, Outline.mapHeaders_ofDeclarations, Outline.mapHeaders_ofDeclarations,
      List.map_cons, Place.recordsUnder_enclosed hparts hg]
  -- the record of the block is read off its node, which has one clause and only the file above it
  exact ⟨_, rfl, rfl, rfl⟩

/-- A method, a block of its own and a comment to the end of the text, between directives. -/
theorem conditional_transparent_block :
    ∃ source, source = "struct S \x7b\n  func f() \x7b\x7d\n\x7d\n#if A\nvar ä = [1]\n#endif // last" ∧
    ∃ o, outlineOf source = .ok o ∧ BracketsNested source ∧ ReadsWithin (nestingLimit - 1) source ∧
      o.EnclosedIn source ∧
      o.functions.map (fun r => (r.header.span, r.header.startLocation)) =
        [(⟨13, 24⟩, ⟨some 2, some 3, 13⟩)] ∧
      o.conditionalBlocks.map (·.clauses) = [["#if A"]] := by
  refine exists_eq_and fun source hsource => ?_
  have hbrackets : BracketsNested source := exists_ok_of_test (by
    subst hsource
    decide +kernel)
  obtain ⟨tree, hread, -⟩ := exists_ok_of_test (P := fun _ => True)
    (x := parseWith .sourceFile (Rule.many (fun ts => !seesEnd ts) (Rule.item (nestingLimit - 1))) source) (by
      subst hsource
      decide +kernel)
  refine (exists_ok_of_test (by
    subst hsource
    decide +kernel)).imp fun o h => ⟨h.1, hbrackets, ⟨tree, hread⟩, ?_, h.2⟩
  exact conditional_transparent h.1 hbrackets ⟨tree, hread⟩

end SwiftOutline
