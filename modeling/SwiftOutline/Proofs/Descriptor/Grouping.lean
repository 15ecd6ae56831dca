import SwiftOutline.Proofs.Descriptor.Rendered
import SwiftOutline.Proofs.Grammar.Grouped

/-!
# `Grouping` — parentheses that only group

A type keeps its descriptor when it is put in parentheses, once or many times: whatever the type is, the
parentheses come off again when the annotation is peeled. Only the text of the type is another, and the
text without its attributes, since these now stand inside. Types that spell void are left out: `(Void)`
is void by its spelling, and not as a group.
-/

namespace SwiftOutline

open SwiftOutline.Tree Token List

/-! ## Descriptors of another text -/

/-- The fields of a type with this text, in front of which no attributes stand. -/
def Fields.retyped (text : String) (f : Fields) : Fields := { f with typeText := text, bareType := text }

/-- The descriptor of a type with this text, in front of which no attributes stand. -/
def Descriptor.retyped (text : String) : Descriptor → Descriptor
  | standard f parameters => standard (f.retyped text) parameters
  | tuple f arguments => tuple (f.retyped text) arguments
  | closure f inputs outputs traits => closure (f.retyped text) inputs outputs traits

theorem Descriptor.retyped_retyped (d : Descriptor) (first second : String) :
    (d.retyped first).retyped second = d.retyped second := by
  cases d <;> rfl

/-! ## Void in parentheses -/

/-- A token holds a character that is not blank: the one it begins with. -/
theorem exists_mark_of_tokensFrom {pos : Nat} {cs : List Char} {ts : List Token}
    (h : tokensFrom pos cs = .ok ts) {t : Token} (ht : t ∈ ts) :
    ∃ c, c ∈ t.text.toList ∧ Text.isBlank c = false := by
  refine tokensFrom_induction (motive := fun _ _ ts => t ∈ ts → ∃ c, c ∈ t.text.toList ∧
    Text.isBlank c = false) ?_ ?_ h ht
  · intro _ _ _ _ _ ht
    cases ht
  · intro pos _ gap c rest lexeme tail hgap hrest hlexeme _ ih ht
    rcases mem_cons.mp ht with rfl | ht
    · -- a blank character would have gone to the gap
      have hstop := scanGap_rest hgap pos (prefix_refl gap.rest)
      rw [hrest] at hstop
      obtain ⟨d, ds, htext⟩ := exists_cons_of_ne_nil (scanLexeme_text_ne_nil hlexeme)
      have happend := scanLexeme_append hlexeme
      rw [htext, cons_append, List.cons.injEq] at happend
      refine ⟨c, ?_, (stop_of_scanGap hstop).1⟩
      rw [String.toList_ofList, htext, happend.1]
      exact mem_cons_self
    · exact ih ht

/-- The texts of the tokens in parentheses. -/
theorem Token.spelling_group (ts : List Token) (lead : String) (start : Nat) :
    spelling (parenToken true 0 :: (ts.map (shiftUp 1) ++ [closingToken lead start])) =
      "(" ++ spelling ts ++ ")" := by
  have hmoved : (ts.map (shiftUp 1)).map text = ts.map text := map_map
  rw [spelling, List.map_cons, map_append, hmoved, String.join_cons,
    String.join_append, String.append_assoc]
  rfl

/-- What spells void in parentheses spells void without them. -/
theorem isVoidSpelling_of_group {s : String} (hs : ∃ c, c ∈ s.toList ∧ Text.isBlank c = false)
    (h : isVoidSpelling ("(" ++ s ++ ")") = true) : isVoidSpelling s = true := by
  -- the spelling inside those that have parentheses around them
  have hinside : ∀ w ∈ voidSpellings, w = "(" ++ String.ofList w.toList.tail.dropLast ++ ")" →
      w.toList.tail.dropLast = [] ∨ String.ofList w.toList.tail.dropLast ∈ voidSpellings := by
    decide
  obtain ⟨c, hc, hblank⟩ := hs
  have hkept : c ∈ (Text.strip s).toList := by
    rw [Text.strip, String.toList_ofList, mem_filter]
    exact ⟨hc, by rw [hblank]; rfl⟩
  have hstrip : Text.strip ("(" ++ s ++ ")") = "(" ++ Text.strip s ++ ")" := by
    rw [Text.strip_append, Text.strip_append]
    rfl
  have htail : ("(" ++ Text.strip s ++ ")").toList.tail.dropLast = (Text.strip s).toList := by
    rw [String.toList_append, String.toList_append]
    exact dropLast_concat
  rw [isVoidSpelling, contains_eq_mem, decide_eq_true_eq, hstrip] at h
  have hinside := hinside _ h
  rw [htail, String.ofList_toList] at hinside
  rcases hinside rfl with hnil | hmem
  · rw [hnil] at hkept
    cases hkept
  · rw [isVoidSpelling, contains_eq_mem, decide_eq_true_eq]
    exact hmem

/-! ## The descriptor of a group -/

namespace Place

theorem describe_retyped (text : String) (fields : Fields) (core : Place) :
    describe (fields.retyped text) core = (describe fields core).retyped text := by
  unfold describe
  split
  · rfl
  split
  · rfl
  · rfl
  · rfl
  · rfl

theorem peel_of_unwrapped? {p q : Place} (h : p.unwrapped? = some q) :
    p.peel = ⟨q.peel.core, p.typeAttributes ++ q.peel.attributes, p.hasInout || q.peel.isInout⟩ := by
  rw [peel]
  split
  · next hnone =>
    rw [h] at hnone
    cases hnone
  · next r hsome =>
    rw [h] at hsome
    cases hsome
    rfl

/-- A type that is alone in its text. -/
abbrev sole (u : Tree) : Place := ⟨u, [.node .typeRoot [u]]⟩

section

variable {opening closing : Token}

/-- The nodes above the type in a group. -/
def groupPath (opening : Token) (v : Tree) (closing : Token) (above : List Tree) : List Tree :=
  .node .tupleTypeElement [v] :: .node .tupleTypeElementList [.node .tupleTypeElement [v]] ::
    groupTree opening v closing :: above

/-- A type that does not spell void comes out of its parentheses. -/
theorem transparent?_groupTree {v : Tree} (hv : v.isType = true) (hvoid : isVoidSpelling v.text = false)
    (above : List Tree) :
    transparent? ⟨groupTree opening v closing, above⟩ = some ⟨v, groupPath opening v closing above⟩ := by
  have hlist : child? .tupleTypeElementList ⟨groupTree opening v closing, above⟩ =
      some ⟨.node .tupleTypeElementList [.node .tupleTypeElement [v]],
        groupTree opening v closing :: above⟩ := rfl
  have hchild : childType? ⟨.node .tupleTypeElement [v], (groupPath opening v closing above).tail⟩ =
      some ⟨v, groupPath opening v closing above⟩ := by
    show Option.map _ ([v].find? Tree.isType) = _
    rw [List.find?_cons, hv]
    rfl
  have hentries : childNodes ⟨.node .tupleTypeElementList [.node .tupleTypeElement [v]],
      groupTree opening v closing :: above⟩ =
      [⟨.node .tupleTypeElement [v], (groupPath opening v closing above).tail⟩] := rfl
  rw [transparent?, hlist]
  simp only [hentries, elementLabels_of_isType hv, hchild]
  show Option.filter (fun inner : Place => !isVoidSpelling inner.text) (some _) = _
  rw [Option.filter_some, show isVoidSpelling (text ⟨v, _⟩) = false from hvoid]
  rfl

variable {g : Token → Token} {u : Tree}

/-- A group peels like the type in it. -/
theorem peel_groupTree (hg : Faithful g u.tokens) (hu : u.isType = true)
    (hvoid : isVoidSpelling u.text = false) (above : List Tree) :
    peel ⟨groupTree opening (u.relabel g) closing, above⟩ =
      ⟨(root u).peel.core.moved g (groupPath opening (u.relabel g) closing above), (root u).peel.attributes,
        (root u).peel.isInout⟩ := by
  have hout : unwrapped? ⟨groupTree opening (u.relabel g) closing, above⟩ =
      some ((root u).moved g (groupPath opening (u.relabel g) closing above)) := by
    refine transparent?_groupTree ?_ ?_ above
    · rw [isType_relabel, hu]
    · rw [text_relabel hg, hvoid]
  rw [peel_of_unwrapped? hout, peel_moved _ hg.legible]
  rfl

/-- **The descriptor of a group** is that of the type in it, but for the text. -/
theorem decompose_group (hg : Faithful g u.tokens) (hu : u.isType = true)
    (hvoid : isVoidSpelling u.text = false) : (sole (groupTree opening (u.relabel g) closing)).decompose =
      (sole u).decompose.retyped (groupTree opening (u.relabel g) closing).text := by
  have hgroup : (sole (groupTree opening (u.relabel g) closing)).peel = _ := peel_groupTree hg hu hvoid _
  have hplain := peel_moved (p := root u) [.node .typeRoot [u]] (faithful_id _).legible
  rw [moved_id_root] at hplain
  -- no optional stands above the type, be it in the group or alone
  have hinside : SameOptional g (groupPath opening (u.relabel g) closing
      [.node .typeRoot [groupTree opening (u.relabel g) closing]]) (root u) := by
    show hasOptionalAbove (groupPath _ _ _ _) = false
    rw [groupPath, hasOptionalAbove_element rfl, hasOptionalAbove_of_stops (A := []) rfl rfl, Bool.and_false]
  have halone : SameOptional id [.node .typeRoot [u]] (root u) := hasOptionalAbove_of_stops rfl rfl
  have hinside := sameOptional_core hg hinside
  have halone := sameOptional_core (faithful_id _) halone
  have hcore : Faithful g (root u).peel.core.tree.tokens :=
    faithful_part hg (contains_core_peel (root u))
  have hfields : (sole (groupTree opening (u.relabel g) closing)).descriptorFields =
      (sole u).descriptorFields.retyped (groupTree opening (u.relabel g) closing).text := by
    have hkind : (sole (groupTree opening (u.relabel g) closing)).isKind .tupleType = true := rfl
    have hisType : (groupTree opening (u.relabel g) closing).isType = true := rfl
    simp only [descriptorFields, labels_typeRoot hisType, labels_typeRoot hu, hgroup, hplain,
      withoutAttributes_of_isKind hkind (by decide), hinside.trans halone.symm]
    rfl
  rw [decompose_eq_describe, decompose_eq_describe, hfields, describe_retyped, hgroup, hplain,
    describe_moved _ hcore hinside, describe_moved _ (faithful_id _) halone]

end

end Place

/-! ## Types as texts -/

/-- Reads a single type with so many levels for it. With as many as there are, this is how every type is
read. -/
def Rule.soleTypeWithin (levels : Nat) : Rule :=
  Rule.type levels ++ Rule.optional (seesKind .ellipsis) Rule.bump ++
    Rule.require seesEnd "end of type" Rule.nothing

/-- The text is a type that is nested no deeper than so many levels. -/
def nestsWithin (levels : Nat) (text : String) : Bool :=
  (parseWith .typeRoot (Rule.soleTypeWithin levels) text).toOption.isSome

/-- The last token of the text is an ellipsis. -/
def endsInEllipsis (text : String) : Bool :=
  (tokenize text).toOption.any fun ts => ts.getLast?.any (·.kind == .ellipsis)

variable {levels : Nat} {text : String}

/-- A text that is a type, with no ellipsis behind it, is one type and nothing else. -/
theorem exists_soleType (hlevels : levels ≤ nestingLimit) (hnests : nestsWithin levels text = true)
    (hellipsis : endsInEllipsis text = false) : ∃ u, SoleType levels text u ∧ u.isType = true := by
  obtain ⟨tree, htree⟩ := Option.isSome_iff_exists.mp hnests
  obtain ⟨ts, trees, rest, hts, hrule, -⟩ := parseWith_eq_ok (eq_ok_of_toOption htree)
  obtain ⟨types, mid, dots, htype, hdots, -⟩ := Rule.seq_eq_ok (Rule.seq_end_eq_ok hrule).1
  have hkeeps := (Rule.lawful_type levels).keeps htype
  have hmid : mid = [] := by
    rcases Rule.optional_eq_ok hdots with ⟨hsees, hbump⟩ | ⟨-, -, hsame⟩
    · -- an ellipsis behind the type would be the last token
      obtain ⟨t, us, rfl⟩ := (Lookahead.ofHead_seesKind .ellipsis).exists_cons hsees
      cases hbump
      have hlast : endsInEllipsis text = true := by
        rw [endsInEllipsis, hts, ← hkeeps]
        simpa [Except.toOption] using eq_of_beq hsees
      rw [hlast] at hellipsis
      cases hellipsis
    · exact hsame.symm
  rw [hmid] at htype hkeeps
  obtain ⟨k, ds, rfl, hk⟩ := Rule.exists_isType_of_type hlevels (lexical_of_tokensFrom hts) htype
  rw [append_nil, forestTokens_singleton] at hkeeps
  refine ⟨.node k ds, ⟨?_, ?_⟩, hk⟩
  · rw [hkeeps, hts]
  · rw [hkeeps, htype]

namespace SoleType

variable {u : Tree}

/-- The descriptor of a text that is one type. -/
theorem decomposeType (h : SoleType levels text u) (hu : u.isType = true) (hlevels : levels ≤ nestingLimit) :
    decomposeType text = .ok (Place.sole u).decompose :=
  Place.decomposeType_of_parseType (h.parseType hlevels) hu

/-- A type that does not spell void does not do so in parentheses. -/
theorem not_isVoidSpelling_group (h : SoleType levels text u) (hvoid : isVoidSpelling u.text = false) :
    isVoidSpelling ("(" ++ text ++ "\n)") = false := by
  obtain ⟨lead, start, htokens, hjoined⟩ := tokenize_group h.tokens
  obtain ⟨t, us, hts⟩ := exists_cons_of_ne_nil (Rule.ne_nil_of_type h.read)
  rw [Bool.eq_false_iff]
  intro hgroup
  rw [← hjoined, isVoidSpelling_joined fun v hv => slash_mem_of_hasComment htokens
    (mem_cons_of_mem _ hv), Bool.and_eq_true] at hgroup
  obtain ⟨hspelling, hbare⟩ := hgroup
  have hfirst : ∃ c, c ∈ (spelling u.tokens).toList ∧ Text.isBlank c = false := by
    obtain ⟨c, hc, hblank⟩ := exists_mark_of_tokensFrom h.tokens (hts ▸ mem_cons_self : t ∈ u.tokens)
    refine ⟨c, ?_, hblank⟩
    rw [spelling, hts, List.map_cons, String.join_cons, String.toList_append]
    exact mem_append_left _ hc
  have hinside : us.all (fun v => !v.hasComment) = true := by
    rw [all_append, all_map, hts, all_cons, Bool.and_eq_true, Bool.and_eq_true] at hbare
    exact hbare.1.2
  have hspelled := isVoidSpelling_of_group hfirst (spelling_group u.tokens lead start ▸ hspelling)
  rw [Tree.text, hts, isVoidSpelling_joined fun v hv =>
    slash_mem_of_hasComment h.tokens (hts ▸ mem_cons_of_mem _ hv), ← hts, hspelled, hinside] at hvoid
  cases hvoid

/-- **What a pair of parentheses leaves as it was.** -/
theorem decompose_group (h : SoleType levels text u) (hu : u.isType = true)
    (hvoid : isVoidSpelling u.text = false) :
    ∃ v, SoleType (levels + 1) ("(" ++ text ++ "\n)") v ∧ v.isType = true ∧ isVoidSpelling v.text = false ∧
      (Place.sole v).decompose = (Place.sole u).decompose.retyped ("(" ++ text ++ "\n)") := by
  obtain ⟨closing, hgroup, htext⟩ := h.group
  refine ⟨_, hgroup, rfl, ?_, ?_⟩
  · rw [htext]
    exact h.not_isVoidSpelling_group hvoid
  · rw [Place.decompose_group (enclosing_shiftUp 1 u.tokens).faithful hu hvoid, htext]

/-- **What any number of parentheses leaves as it was.** -/
theorem decompose_grouped (h : SoleType levels text u) (hu : u.isType = true)
    (hvoid : isVoidSpelling u.text = false) (n : Nat) :
    ∃ v, SoleType (levels + n) (grouped text n) v ∧ v.isType = true ∧ isVoidSpelling v.text = false ∧
      ∀ other, (Place.sole v).decompose.retyped other = (Place.sole u).decompose.retyped other := by
  induction n with
  | zero => exact ⟨u, h, hu, hvoid, fun _ => rfl⟩
  | succ n ih =>
    obtain ⟨v, hv, htype, hnone, hsame⟩ := ih
    obtain ⟨w, hw, htype, hnone, hgroup⟩ := hv.decompose_group htype hnone
    refine ⟨w, hw, htype, hnone, fun other => ?_⟩
    rw [hgroup, Descriptor.retyped_retyped, hsame]

end SoleType

/-- **A type in any number of parentheses** has the descriptor that it has without them, but for its
text: the same variant, with the same fields and the same descriptors inside. This holds of every type
that has no ellipsis behind it, that does not spell void, and that together with the parentheses is not
nested too deep. -/
theorem parentheses_transparent {text : String} {d : Descriptor} (hd : decomposeType text = .ok d)
    (hellipsis : endsInEllipsis text = false) (hvoid : isVoidSpelling d.fields.typeText = false) {n : Nat}
    (hnests : nestsWithin (nestingLimit - (n + 1)) text = true) :
    decomposeType (grouped text (n + 1)) = .ok (d.retyped (grouped text (n + 1))) := by
  obtain ⟨u, hu, htype⟩ := exists_soleType (Nat.sub_le _ _) hnests hellipsis
  have hlevels : nestingLimit - (n + 1) + (n + 1) ≤ nestingLimit := by
    by_cases hn : n + 1 ≤ nestingLimit
    · exact Nat.le_of_eq (Nat.sub_add_cancel hn)
    · -- no type is read without a level for it
      have hread := hu.read
      rw [Nat.sub_eq_zero_of_le (Nat.le_of_not_le hn)] at hread
      cases hread
  rw [hu.decomposeType htype (Nat.sub_le _ _)] at hd
  cases hd
  rw [Place.fields_decompose] at hvoid
  obtain ⟨v, hv, hvtype, hnone, hsame⟩ := hu.decompose_grouped htype hvoid n
  obtain ⟨w, hw, hwtype, -, hgroup⟩ := hv.decompose_group hvtype hnone
  rw [grouped, hw.decomposeType hwtype hlevels, hgroup, hsame]

/-- A closure that is optional behind an attribute, with a comment at the end that the line feed has to
close. -/
theorem parentheses_transparent_commented :
    ∃ text d, text = "@A ((inout [B], c: C...) async -> (D, Void))? // e" ∧
    decomposeType text = .ok d ∧ endsInEllipsis text = false ∧ isVoidSpelling d.fields.typeText = false ∧
      nestsWithin (nestingLimit - 2) text = true ∧ grouped text 2 = "((" ++ text ++ "\n)\n)" ∧
      decomposeType (grouped text 2) = .ok (d.retyped (grouped text 2)) := by
  obtain ⟨d, hd, hvoid⟩ :=
    exists_ok_of_test (x := decomposeType "@A ((inout [B], c: C...) async -> (D, Void))? // e")
    (P := fun d => isVoidSpelling d.fields.typeText = false) (by decide +kernel)
  refine ⟨_, d, rfl, hd, ?hellipsis, hvoid, ?hnests, by decide +kernel,
    parentheses_transparent hd ?hellipsis hvoid ?hnests⟩
  all_goals decide +kernel

end SwiftOutline
