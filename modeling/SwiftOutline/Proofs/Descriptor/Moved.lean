import SwiftOutline.Proofs.Tree.Moved
import SwiftOutline.Descriptor.Decompose

/-!
# `Descriptor.Moved` — the descriptor of an annotation that is read elsewhere

Of what stands around it, the descriptor of an annotation shows only the labels of the element that carries
it, and whether an optional stands above it. So an annotation keeps its descriptor when it is moved, as long
as these two stay the same.
-/

namespace SwiftOutline

open SwiftOutline.Tree List

/-! ## What the shape of a descriptor is read from -/

/-- A change that keeps the classes and texts of the tokens, and of every part of the tree whether it
    spells void. The gaps between the tokens may change otherwise. -/
structure Tree.Legible (g : Token → Token) (t : Tree) : Prop where
  kind : ∀ u ∈ t.tokens, (g u).kind = u.kind
  text : ∀ u ∈ t.tokens, (g u).text = u.text
  void : ∀ c, t.Contains c → isVoidSpelling (c.relabel g).text = isVoidSpelling c.text

section

variable {g : Token → Token} {t c : Tree}

/-- A faithful change keeps all that is read. -/
theorem Token.Faithful.legible (h : Faithful g t.tokens) : t.Legible g where
  kind := h.kind
  text := h.text
  void c hc := by rw [text_relabel (faithful_part h hc)]

/-- The parts of a tree are read like the tree. -/
theorem Tree.Legible.part (h : t.Legible g) (hc : t.Contains c) : c.Legible g where
  kind u hu := h.kind u (hc.tokens_isInfix.mem hu)
  text u hu := h.text u (hc.tokens_isInfix.mem hu)
  void d hd := h.void d (hc.trans hd)

end

/-! ## Labels -/

section

variable {g : Token → Token}

variable {t : Tree}

/-- The text of the value stays (`Faithful`). -/
theorem initializer?_relabel (hg : Token.Faithful g t.tokens) :
    (t.relabel g).initializer? = t.initializer? := by
  rw [initializer?, initializer?, child?_relabel]
  cases h : t.child? .initializerClause with
  | none => rfl
  | some clause =>
    have hclause := faithful_child hg (mem_children_of_child? h)
    exact map_child?_relabel (fun c hc => text_relabel (faithful_child hclause hc)) _

/-- The words before the first colon. -/
theorem words_before_colon_map {us : List Token} (hkind : ∀ u ∈ us, (g u).kind = u.kind)
    (htext : ∀ u ∈ us, (g u).text = u.text) :
    (((us.map g).takeWhile (·.text != ":")).filter Token.isWord).map Token.text =
      ((us.takeWhile (·.text != ":")).filter Token.isWord).map Token.text := by
  induction us with
  | nil => rfl
  | cons u us ih =>
    have ihs := ih (fun v hv => hkind v (mem_cons_of_mem _ hv))
      (fun v hv => htext v (mem_cons_of_mem _ hv))
    have hu := htext u mem_cons_self
    have hword : (g u).isWord = u.isWord := by
      rw [Token.isWord, Token.isWord, hkind u mem_cons_self]
    rw [List.map_cons, takeWhile_cons, takeWhile_cons, hu]
    split
    · rw [filter_cons, filter_cons, hword]
      split
      · rw [List.map_cons, List.map_cons, hu, ihs]
      · exact ihs
    · rfl

/-- By `words_before_colon_map`. -/
theorem elementNames_relabel (hg : t.Legible g) : (t.relabel g).elementNames = t.elementNames := by
  rw [elementNames, elementNames, hasToken_relabel hg.text, childTokens_relabel, words_before_colon_map]
  · intro u hu
    exact hg.kind u (mem_tokens_of_childTokens hu)
  · intro u hu
    exact hg.text u (mem_tokens_of_childTokens hu)

theorem elementLabels_relabel (hg : Token.Faithful g t.tokens) :
    (t.relabel g).elementLabels = t.elementLabels := by
  rw [elementLabels, elementLabels, elementNames_relabel hg.legible, hasToken_relabel hg.text,
    initializer?_relabel hg]

/-- The labels, of a default value only whether there is one. -/
def Labels.outline (l : Labels) : Labels := { l with defaultArgument := l.defaultArgument.map fun _ => "" }

/-- Whether there is a default value does not hang on its text. -/
theorem outline_elementLabels_relabel (hg : t.Legible g) :
    (t.relabel g).elementLabels.outline = t.elementLabels.outline := by
  have hdefault : (t.relabel g).initializer?.map (fun _ => "") = t.initializer?.map fun _ => "" := by
    rw [initializer?, initializer?, child?_relabel, Option.map_map, Option.map_map]
    cases t.child? .initializerClause with
    | none => rfl
    | some clause =>
      simp only [Option.map_some, Option.bind_some, child?_relabel, Option.map_map]
      rfl
  simp only [Labels.outline, elementLabels, elementNames_relabel hg, hasToken_relabel hg.text, hdefault]

end

/-! ## Up to a closing parenthesis -/

/-- The trees up to the first one that is a closing parenthesis, with that one. -/
def upToClose (cs : List Tree) : List Tree :=
  (cs.takeWhile fun t => !t.token?.any (·.text == ")")) ++
    (cs.dropWhile fun t => !t.token?.any (·.text == ")")).take 1

theorem upToClose_cons (c : Tree) (cs : List Tree) :
    upToClose (c :: cs) = if c.token?.any (·.text == ")") then [c] else c :: upToClose cs := by
  unfold upToClose
  rw [takeWhile_cons, dropWhile_cons]
  cases c.token?.any (·.text == ")") with
  | false => rfl
  | true => rfl

/-- What is cut off is a prefix of the children. -/
theorem upToClose_isPrefix (cs : List Tree) : upToClose cs <+: cs := by
  induction cs with
  | nil => exact List.nil_prefix
  | cons c cs ih =>
    rw [upToClose_cons]
    split
    · exact prefix_iff_eq_append.mpr rfl
    · exact (prefix_cons_inj c).mpr ih

/-- The cut is made by texts, which stay. -/
theorem upToClose_map {g : Token → Token} {cs : List Tree}
    (htext : ∀ u, .token u ∈ cs → (g u).text = u.text) :
    upToClose (cs.map (relabel g)) = (upToClose cs).map (relabel g) := by
  induction cs with
  | nil => rfl
  | cons c cs ih =>
    have hsame : (c.relabel g).token?.any (·.text == ")") = c.token?.any (·.text == ")") := by
      cases c with
      | node k cs => rw [relabel_node]; rfl
      | token u =>
        show ((g u).text == ")") = (u.text == ")")
        rw [htext u mem_cons_self]
    rw [List.map_cons, upToClose_cons, upToClose_cons, hsame,
      ih fun u hu => htext u (mem_cons_of_mem _ hu)]
    split
    · rfl
    · rfl

theorem forestTokens_isPrefix {as bs : List Tree} (h : as <+: bs) : forestTokens as <+: forestTokens bs := by
  obtain ⟨rest, rfl⟩ := h
  rw [forestTokens_append]
  exact prefix_append _ _

/-- The kinds of node at which the search for an optional above ends without one. -/
def NodeKind.stopsSearch (k : NodeKind) : Bool :=
  !(k.isOptional || k == .attributedType || k == .tupleTypeElement)

/-! ## Peeling -/

namespace Place

variable (g : Token → Token) (above : List Tree)

/-- The types that stand in the entries of a list. -/
theorem entries_moved (p : Place) : (p.moved g above).childNodes.filterMap childType? =
    (p.childNodes.filterMap childType?).map (moved g above) := by
  rw [childNodes_moved, filterMap_map, map_filterMap]
  congr 1
  funext q
  exact childType?_moved g above q

/-- By `entries_moved`. -/
theorem elementTypes_moved (p : Place) :
    (p.moved g above).elementTypes = p.elementTypes.map (moved g above) := by
  rw [elementTypes, elementTypes, child?_moved]
  cases p.child? .tupleTypeElementList with
  | none => rfl
  | some list => exact entries_moved g above list

theorem argumentTypes_moved (p : Place) :
    (p.moved g above).argumentTypes = p.argumentTypes.map (moved g above) := by
  rw [argumentTypes, argumentTypes, child?_moved]
  cases p.child? .genericArgumentClause with
  | none => rfl
  | some clause => exact entries_moved g above clause

/-- Attributes are taken off by kinds, which stay. -/
theorem withoutAttributes_moved (p : Place) :
    (p.moved g above).withoutAttributes = p.withoutAttributes.moved g above := by
  fun_induction withoutAttributes p with
  | case1 p q h hkind ih =>
    rw [withoutAttributes]
    have h' := childType?_moved g above p
    rw [h, Option.map_some] at h'
    split
    · next q' hq' =>
      rw [h'] at hq'
      cases hq'
      rw [isKind_moved, if_pos hkind, ih]
    · next hnone =>
      rw [h'] at hnone
      cases hnone
  | case2 p q h hkind =>
    rw [withoutAttributes]
    split
    · rw [isKind_moved, if_neg hkind]
    · rfl
  | case3 p h =>
    rw [withoutAttributes]
    have h' := childType?_moved g above p
    rw [h, Option.map_none] at h'
    split
    · next q' hq' =>
      rw [h'] at hq'
      cases hq'
    · rfl

theorem contains_withoutAttributes (p : Place) : p.tree.Contains p.withoutAttributes.tree := by
  fun_induction withoutAttributes p with
  | case1 p q h _ ih => exact (contains_of_childType? h).trans ih
  | case2 => exact .self
  | case3 => exact .self

/-- Peeling goes down. -/
theorem contains_core_peel (p : Place) : p.tree.Contains p.peel.core.tree := by
  fun_induction peel p with
  | case1 => exact .self
  | case2 p q h _ ih => exact (holdsBelow_of_unwrapped? h).contains.trans ih

variable {g} {p : Place}

theorem text_moved (hg : Token.Faithful g p.tree.tokens) : (p.moved g above).text = p.text := text_relabel hg

theorem text_withoutAttributes_moved (hg : Token.Faithful g p.tree.tokens) :
    (p.moved g above).withoutAttributes.text = p.withoutAttributes.text := by
  rw [withoutAttributes_moved]
  exact text_moved above (faithful_part hg (contains_withoutAttributes p))

section

variable (hg : p.tree.Legible g)
include hg

theorem isVoidSpelling_moved : isVoidSpelling (p.moved g above).text = isVoidSpelling p.text :=
  hg.void _ .self

theorem isVoidSpelling_withoutAttributes_moved :
    isVoidSpelling (p.moved g above).withoutAttributes.text = isVoidSpelling p.withoutAttributes.text := by
  rw [withoutAttributes_moved]
  exact isVoidSpelling_moved above (hg.part (contains_withoutAttributes p))

/-- A pair of parentheses stays one. -/
theorem transparent?_moved : (p.moved g above).transparent? = p.transparent?.map (moved g above) := by
  rw [transparent?, transparent?, child?_moved]
  cases hlist : p.child? .tupleTypeElementList with
  | none => rfl
  | some list =>
    simp only [Option.map_some, childNodes_moved]
    cases helements : list.childNodes with
    | nil => rfl
    | cons element others =>
      cases others with
      | cons _ _ => rfl
      | nil =>
        have helement := (contains_of_child? hlist).trans
          (contains_of_childNodes (p := list) (q := element)
            (by rw [helements]; exact mem_singleton_self _))
        have hlabels := outline_elementLabels_relabel (hg.part helement)
        have hname := congrArg Labels.name hlabels
        have hvariadic := congrArg Labels.variadic hlabels
        have hdefault := congrArg (·.defaultArgument.isNone) hlabels
        simp only [Labels.outline, Option.isNone_map] at hname hvariadic hdefault
        simp only [List.map_cons, map_nil, tree_moved, hname, hvariadic, hdefault]
        split
        · rw [childType?_moved]
          cases hinner : element.childType? with
          | none => rfl
          | some inner =>
            have hvoid := isVoidSpelling_moved above
              (hg.part (helement.trans (contains_of_childType? hinner)))
            simp only [Option.map_some, Option.filter_some, hvoid]
            split
            · rfl
            · rfl
        · rfl

/-- One step of peeling (`transparent?_moved`). -/
theorem unwrapped?_moved : (p.moved g above).unwrapped? = p.unwrapped?.map (moved g above) := by
  rw [unwrapped?, unwrapped?, kind?_moved]
  split
  · exact childType?_moved g above p
  · exact childType?_moved g above p
  · exact childType?_moved g above p
  · exact transparent?_moved above hg
  · rfl

theorem typeAttributes_moved : (p.moved g above).typeAttributes = p.typeAttributes := by
  rw [typeAttributes, typeAttributes, isKind_moved, tree_moved, map_attributes_relabel]
  intro c hc
  exact name_toAttribute_relabel (hg.part hc).text

theorem hasInout_moved : (p.moved g above).hasInout = p.hasInout := by
  rw [hasInout, hasInout, isKind_moved, tree_moved, hasToken_relabel hg.text]

/-- **Peeling commutes with moving.** -/
theorem peel_moved :
    (p.moved g above).peel = ⟨p.peel.core.moved g above, p.peel.attributes, p.peel.isInout⟩ := by
  fun_induction peel p with
  | case1 p h =>
    have h' := unwrapped?_moved above hg
    rw [h, Option.map_none] at h'
    rw [peel]
    split
    · rw [typeAttributes_moved above hg, hasInout_moved above hg]
    · next q hq =>
      rw [h'] at hq
      cases hq
  | case2 p q h inner ih =>
    have h' := unwrapped?_moved above hg
    rw [h, Option.map_some] at h'
    rw [peel]
    split
    · next hnone =>
      rw [h'] at hnone
      cases hnone
    · next q' hq =>
      rw [h'] at hq
      cases hq
      rw [ih (hg.part (holdsBelow_of_unwrapped? h).contains), typeAttributes_moved above hg,
        hasInout_moved above hg]

/-! ## The core -/

theorem isVoidCore_moved : (p.moved g above).isVoidCore = p.isVoidCore := by
  rw [isVoidCore, isVoidCore, isVoidSpelling_moved above hg, isKind_moved,
    elementTypes_moved, isEmpty_map]

/-- The name `Result` stays. -/
theorem isResult_moved : (p.moved g above).isResult = p.isResult := by
  have hfirst : (p.tree.relabel g).firstToken?.any (·.text == "Result") =
      p.tree.firstToken?.any (·.text == "Result") := by
    rw [firstToken?, tokens_relabel, List.head?_map, firstToken?]
    cases h : p.tree.tokens with
    | nil => rfl
    | cons t ts =>
      show ((g t).text == "Result") = (t.text == "Result")
      rw [hg.text t (by rw [h]; exact mem_cons_self)]
  rw [isResult, isResult, tree_moved, hfirst, child?_moved, Option.isSome_map]

/-- Whether the input list is empty stays. -/
theorem isVoidInput_moved : (p.moved g above).isVoidInput = p.isVoidInput := by
  rw [isVoidInput, isVoidInput, elementTypes_moved]
  cases h : p.elementTypes with
  | nil => rfl
  | cons q others =>
    cases others with
    | cons _ _ => rfl
    | nil =>
      have hq : q ∈ p.elementTypes := by
        rw [h]
        exact mem_singleton_self q
      simp only [List.map_cons, map_nil]
      exact isVoidSpelling_withoutAttributes_moved above (hg.part (holdsBelow_of_elementTypes hq).contains)

theorem inputTypes_moved : (p.moved g above).inputTypes = p.inputTypes.map (moved g above) := by
  rw [inputTypes, inputTypes, isVoidInput_moved above hg, elementTypes_moved]
  split
  · rfl
  · rfl

end

/-- The text of the input list is that of the first children, up to the closing parenthesis. -/
theorem inputText_moved (hg : Token.Faithful g p.tree.tokens) :
    (p.moved g above).inputText = p.inputText := by
  have hcut := @upToClose_map g p.tree.children fun u hu =>
    hg.text u (mem_tokens_of_childTokens (mem_filterMap.mpr ⟨.token u, hu, rfl⟩))
  have hinfix : forestTokens (upToClose p.tree.children) <:+: p.tree.tokens := by
    cases htree : p.tree with
    | token t => exact List.nil_infix
    | node k cs =>
      rw [tokens_node]
      exact (forestTokens_isPrefix (upToClose_isPrefix cs)).isInfix
  have hjoined := (hg.of_isInfix hinfix).joined_map
  rw [inputText, inputText, tree_moved, hasToken_relabel hg.text, children_relabel]
  split
  · show Token.joined (forestTokens (upToClose (p.tree.children.map (relabel g)))) =
      Token.joined (forestTokens (upToClose p.tree.children))
    rw [hcut, forestTokens_relabel, hjoined]
  · rfl

theorem map_text_moved {part : Option Place} (hpart : ∀ q ∈ part, Token.Faithful g q.tree.tokens) :
    (part.map (moved g above)).map text = part.map text := by
  cases part with
  | none => rfl
  | some q => exact congrArg some (text_moved above (hpart q rfl))

section

variable {part : Option Place} (hpart : ∀ q ∈ part, q.tree.Legible g)
include hpart

theorem isVoidOutput_moved : isVoidOutput (part.map (moved g above)) = isVoidOutput part := by
  cases part with
  | none => rfl
  | some q =>
    simp only [Option.map_some, isVoidOutput]
    exact isVoidSpelling_withoutAttributes_moved above (hpart q rfl)

/-- Results are told by kinds and by the spelling of void. -/
theorem outputTypes_moved :
    outputTypes (part.map (moved g above)) = (outputTypes part).map (moved g above) := by
  cases part with
  | none => rfl
  | some q =>
    simp only [Option.map_some, outputTypes]
    rw [isVoidSpelling_withoutAttributes_moved above (hpart q rfl), isKind_moved, elementTypes_moved]
    split
    · rfl
    split
    · rfl
    · rfl

theorem isAsync_moved : isAsync (part.map (moved g above)) = isAsync part := by
  cases part with
  | none => rfl
  | some q =>
    simp only [Option.map_some, isAsync, Option.any_some, tree_moved, hasToken_relabel (hpart q rfl).text]

theorem isThrowing_moved : isThrowing (part.map (moved g above)) = isThrowing part := by
  cases part with
  | none => rfl
  | some q =>
    simp only [Option.map_some, isThrowing, Option.any_some, tree_moved, hasToken_relabel (hpart q rfl).text]

end

theorem legible_of_faithful {part : Option Place} (hpart : ∀ q ∈ part, Token.Faithful g q.tree.tokens) :
    ∀ q ∈ part, q.tree.Legible g :=
  fun q hq => (hpart q hq).legible

/-- A closure says the same beside its two sides wherever it stands. -/
theorem closureTraits_moved (hg : Token.Faithful g p.tree.tokens) (fields : Fields) :
    closureTraits fields (p.moved g above) = closureTraits fields p := by
  have htype : ∀ q ∈ p.childType?, Token.Faithful g q.tree.tokens :=
    fun q hq => faithful_part hg (contains_of_childType? hq)
  have heffects : ∀ q ∈ p.child? .effectSpecifiers, Token.Faithful g q.tree.tokens :=
    fun q hq => faithful_part hg (contains_of_child? hq)
  rw [closureTraits, closureTraits, isVoidInput_moved above hg.legible, childType?_moved,
    isVoidOutput_moved above (legible_of_faithful htype), child?_moved,
    isAsync_moved above (legible_of_faithful heffects), isThrowing_moved above (legible_of_faithful heffects),
    inputText_moved above hg, outputText, outputText, map_text_moved above htype, text_moved above hg]

/-! ## What stands around an annotation -/

section

variable {e l t : Tree} {k : NodeKind} {A A' : List Tree}

/-- The search ends at an optional. -/
theorem hasOptionalAbove_eq_true (h : t.kind? = some k) (hk : k.isOptional = true) :
    hasOptionalAbove (t :: A) = true := by
  rw [hasOptionalAbove.eq_def]
  simp only [h]
  cases k <;> first | rfl | cases hk

theorem hasOptionalAbove_attributed (h : t.kind? = some .attributedType) :
    hasOptionalAbove (t :: A) = hasOptionalAbove A := by
  rw [hasOptionalAbove.eq_def]
  simp only [h]

/-- The search goes on above parentheses only. -/
theorem hasOptionalAbove_element (h : e.kind? = some .tupleTypeElement) :
    hasOptionalAbove (e :: l :: t :: A) =
      (t.isKind .tupleType && (transparent? ⟨t, A⟩).isSome && hasOptionalAbove A) := by
  rw [hasOptionalAbove, h]

/-- The search ends at a kind that stops it. -/
theorem hasOptionalAbove_of_stops (h : t.kind? = some k) (hk : k.stopsSearch = true) :
    hasOptionalAbove (t :: A) = false := by
  rw [hasOptionalAbove.eq_def]
  simp only [h]
  cases k <;> first | rfl | cases hk

theorem hasOptionalAbove_token (h : t.kind? = none) : hasOptionalAbove (t :: A) = false := by
  rw [hasOptionalAbove.eq_def]
  simp only [h]

/-- What the search for an optional above finds from the entry of a list `l` in `t`. -/
theorem hasOptionalAbove_entry {g : Token → Token} (hg : Token.Faithful g t.tokens)
    (hl : l.kind? = some k) (hk : k.stopsSearch = true)
    (hA : t.isKind .tupleType = true → hasOptionalAbove A' = hasOptionalAbove A) :
    hasOptionalAbove (e.relabel g :: l.relabel g :: t.relabel g :: A') =
      hasOptionalAbove (e :: l :: t :: A) := by
  have he := kind?_relabel g e
  have hl' := (kind?_relabel g l).trans hl
  cases hkind : e.kind? with
  | none => rw [hasOptionalAbove_token hkind, hasOptionalAbove_token (he.trans hkind)]
  | some j =>
    rw [hkind] at he
    by_cases hoptional : j.isOptional = true
    · rw [hasOptionalAbove_eq_true hkind hoptional, hasOptionalAbove_eq_true he hoptional]
    by_cases hattributed : j = .attributedType
    · subst hattributed
      rw [hasOptionalAbove_attributed hkind, hasOptionalAbove_attributed he, hasOptionalAbove_of_stops hl hk,
        hasOptionalAbove_of_stops hl' hk]
    by_cases helement : j = .tupleTypeElement
    · subst helement
      have htransparent : (transparent? ⟨t.relabel g, A'⟩).isSome = (transparent? ⟨t, A⟩).isSome := by
        have h := transparent?_moved A' (p := root t) hg.legible
        have h' := transparent?_moved A (p := root t) (Token.faithful_id _).legible
        rw [moved_root] at h
        rw [moved_id_root] at h'
        rw [h, h', Option.isSome_map, Option.isSome_map]
      rw [hasOptionalAbove_element hkind, hasOptionalAbove_element he, isKind_relabel, htransparent]
      cases htuple : t.isKind .tupleType with
      | false => rfl
      | true => rw [hA htuple]
    · have hstops : j.stopsSearch = true := by
        rw [NodeKind.stopsSearch, Bool.not_eq_true', Bool.or_eq_false_iff, Bool.or_eq_false_iff]
        exact ⟨⟨Bool.eq_false_iff.mpr hoptional, beq_false_of_ne hattributed⟩, beq_false_of_ne helement⟩
      rw [hasOptionalAbove_of_stops hkind hstops, hasOptionalAbove_of_stops he hstops]

/-- The labels of the entry of a list. -/
theorem labels_entry {c : Tree} (hl : l.kind? = some k) (hk : k.isCarrier = false) :
    labels ⟨c, e :: l :: A⟩ =
      if e.kind?.any NodeKind.isOptional then {}
      else if e.kind?.any NodeKind.isCarrier then e.elementLabels else {} := by
  unfold labels carrier? parent? kind?
  simp only [Option.bind_eq_bind, Option.bind_some]
  split
  · simp only [hl, Option.any_some, hk, Bool.false_eq_true, if_false, Option.map_none, Option.getD_none]
  · split
    · rfl
    · rfl

/-- A type directly below a node that carries no labels has none. -/
theorem labels_child {c : Tree} (ht : t.kind? = some k) (hk : k.isCarrier = false)
    (hoptional : k.isOptional = false) : labels ⟨c, t :: A⟩ = {} := by
  unfold labels carrier? parent? kind?
  simp only [Option.bind_eq_bind, Option.bind_some, ht, Option.any_some, hoptional, hk,
    Bool.false_eq_true, if_false, Option.map_none, Option.getD_none]

end

/-! ## Alike places -/

/-- The search for an optional above the place has the same outcome where the place is moved to. -/
def SameOptional (g : Token → Token) (A : List Tree) (p : Place) : Prop :=
  hasOptionalAbove (p.moved g A).above = hasOptionalAbove p.above

/-- Where the annotation is moved to, its descriptor shows the same of what stands around it. -/
structure Alike (g : Token → Token) (A : List Tree) (p : Place) : Prop where
  optional : SameOptional g A p
  labels : (p.moved g A).labels = p.labels

section

variable {g : Token → Token} {A : List Tree} {p q : Place}

variable {k : NodeKind}

/-- An entry of a list is alike, if the list stands in no tuple or the tuple is. -/
theorem alike_of_entries {list : Place} {t : Tree} {rest : List Tree}
    (hg : Token.Faithful g t.tokens) (hlist : list.kind? = some k) (hstops : k.stopsSearch = true)
    (hcarrier : k.isCarrier = false) (habove : list.above = t :: rest) (hin : t.Contains list.tree)
    (htuple : t.isKind .tupleType = true → SameOptional g A ⟨t, rest⟩)
    (hq : q ∈ list.childNodes.filterMap childType?) : Alike g A q := by
  obtain ⟨entry, hentry, htype⟩ := mem_filterMap.mp hq
  obtain ⟨e, he, rfl⟩ := mem_map.mp hentry
  obtain ⟨c, hc, rfl⟩ := Option.map_eq_some_iff.mp htype
  have hentryIn : t.Contains e := hin.trans (contains_of_childNodes (mem_map_of_mem he))
  constructor
  · show hasOptionalAbove (e.relabel g :: list.tree.relabel g :: (list.above.map (relabel g) ++ A)) =
      hasOptionalAbove (e :: list.tree :: list.above)
    rw [habove]
    exact hasOptionalAbove_entry hg hlist hstops htuple
  · show labels ⟨c.relabel g, e.relabel g :: list.tree.relabel g :: _⟩ =
      labels ⟨c, e :: list.tree :: _⟩
    rw [labels_entry hlist hcarrier, labels_entry ((kind?_relabel g list.tree).trans hlist) hcarrier,
      kind?_relabel, elementLabels_relabel (faithful_part hg hentryIn)]

/-- By `alike_of_entries`. -/
theorem alike_of_elementTypes (hg : Token.Faithful g p.tree.tokens)
    (hp : p.isKind .tupleType = true → SameOptional g A p) (hq : q ∈ p.elementTypes) : Alike g A q := by
  unfold elementTypes at hq
  split at hq
  · next list hlist =>
    obtain ⟨l, hl, rfl⟩ := Option.map_eq_some_iff.mp hlist
    exact alike_of_entries hg (kind?_of_child? hl) rfl rfl rfl (contains_of_child? hlist) hp hq
  · cases hq

theorem alike_of_argumentTypes (hg : Token.Faithful g p.tree.tokens) (hp : SameOptional g A p)
    (hq : q ∈ p.argumentTypes) : Alike g A q := by
  unfold argumentTypes at hq
  split at hq
  · next list hlist =>
    obtain ⟨l, hl, rfl⟩ := Option.map_eq_some_iff.mp hlist
    exact alike_of_entries hg (kind?_of_child? hl) rfl rfl rfl (contains_of_child? hlist) (fun _ => hp) hq
  · cases hq

/-- A type directly below a node that is no part of a type is alike. -/
theorem alike_of_childType? (hkind : p.kind? = some k) (hstops : k.stopsSearch = true)
    (hcarrier : k.isCarrier = false) (hq : p.childType? = some q) : Alike g A q := by
  obtain ⟨c, hc, rfl⟩ := Option.map_eq_some_iff.mp hq
  have hkind' : (p.tree.relabel g).kind? = some k := (kind?_relabel g p.tree).trans hkind
  have hoptional : k.isOptional = false := by
    rw [NodeKind.stopsSearch, Bool.not_eq_true', Bool.or_eq_false_iff, Bool.or_eq_false_iff] at hstops
    exact hstops.1.1
  constructor
  · show hasOptionalAbove (p.tree.relabel g :: _) = hasOptionalAbove (p.tree :: _)
    rw [hasOptionalAbove_of_stops hkind hstops, hasOptionalAbove_of_stops hkind' hstops]
  · show labels ⟨c.relabel g, p.tree.relabel g :: _⟩ = labels ⟨c, p.tree :: _⟩
    rw [labels_child hkind hcarrier hoptional, labels_child hkind' hcarrier hoptional]

theorem sameOptional_of_transparent? (hg : Token.Faithful g p.tree.tokens) (hp : SameOptional g A p)
    (hq : p.transparent? = some q) : SameOptional g A q :=
  (alike_of_elementTypes hg (fun _ => hp) (mem_elementTypes_of_transparent? hq)).optional

theorem sameOptional_of_optional (hkind : p.kind? = some k) (hk : k.isOptional = true)
    (hq : p.childType? = some q) : SameOptional g A q := by
  obtain ⟨c, hc, rfl⟩ := Option.map_eq_some_iff.mp hq
  show hasOptionalAbove (p.tree.relabel g :: _) = hasOptionalAbove (p.tree :: _)
  rw [hasOptionalAbove_eq_true hkind hk, hasOptionalAbove_eq_true ((kind?_relabel g p.tree).trans hkind) hk]

/-- By cases on what is peeled. -/
theorem sameOptional_of_unwrapped? (hg : Token.Faithful g p.tree.tokens) (hp : SameOptional g A p)
    (hq : p.unwrapped? = some q) : SameOptional g A q := by
  unfold unwrapped? at hq
  split at hq
  · next hkind =>
    obtain ⟨c, hc, rfl⟩ := Option.map_eq_some_iff.mp hq
    show hasOptionalAbove (p.tree.relabel g :: _) = hasOptionalAbove (p.tree :: _)
    rw [hasOptionalAbove_attributed hkind,
      hasOptionalAbove_attributed ((kind?_relabel g p.tree).trans hkind)]
    exact hp
  · next hkind => exact sameOptional_of_optional hkind rfl hq
  · next hkind => exact sameOptional_of_optional hkind rfl hq
  · exact sameOptional_of_transparent? hg hp hq
  · cases hq

/-- Peeling keeps what the search for an optional finds: each wrapping adds the same in both places. -/
theorem sameOptional_core (hg : Token.Faithful g p.tree.tokens) (hp : SameOptional g A p) :
    SameOptional g A p.peel.core := by
  fun_induction peel p with
  | case1 => exact hp
  | case2 p q h _ ih =>
    exact ih (faithful_part hg (holdsBelow_of_unwrapped? h).contains) (sameOptional_of_unwrapped? hg hp h)

/-- Texts stay, and what is read above is alike (`Alike`). -/
theorem descriptorFields_moved (hg : Token.Faithful g p.tree.tokens) (hp : Alike g A p) :
    (p.moved g A).descriptorFields = p.descriptorFields := by
  have hcore : hasOptionalAbove (p.peel.core.moved g A).above = hasOptionalAbove p.peel.core.above :=
    sameOptional_core hg hp.optional
  simp only [descriptorFields, peel_moved A hg.legible, text_moved A hg, text_withoutAttributes_moved A hg,
    hp.labels, hcore]

/-- The outputs of a function are alike if its return type is. -/
theorem alike_of_outputTypes {part : Option Place}
    (hpart : ∀ r ∈ part, Token.Faithful g r.tree.tokens ∧ Alike g A r) (hq : q ∈ outputTypes part) :
    Alike g A q := by
  unfold outputTypes at hq
  split at hq
  · cases hq
  · next r =>
    obtain ⟨hg, halike⟩ := hpart r rfl
    split at hq
    · cases hq
    split at hq
    · exact alike_of_elementTypes hg (fun _ => halike.optional) hq
    · cases mem_singleton.mp hq
      exact halike

theorem contains_of_outputTypes {part : Option Place} (hq : q ∈ outputTypes part) :
    ∃ r ∈ part, r.tree.Contains q.tree := by
  obtain ⟨r, hr, rfl | hq⟩ := eq_or_holdsBelow_of_outputTypes hq
  · exact ⟨q, hr, .self⟩
  · exact ⟨r, hr, hq.contains⟩

theorem alike_of_functionOutputs (hg : Token.Faithful g p.tree.tokens)
    (hkind : p.kind? = some .functionType) (hq : q ∈ outputTypes p.childType?) : Alike g A q := by
  refine alike_of_outputTypes ?_ hq
  intro r hr
  exact ⟨faithful_part hg (contains_of_childType? hr), alike_of_childType? hkind rfl rfl hr⟩

/-- Inputs are elements of the list. -/
theorem alike_of_inputTypes (hg : Token.Faithful g p.tree.tokens)
    (hp : p.isKind .tupleType = true → SameOptional g A p) (hq : q ∈ p.inputTypes) : Alike g A q := by
  unfold inputTypes at hq
  split at hq
  · cases hq
  · exact alike_of_elementTypes hg hp hq

/-- What is the same of each place is the same of all. -/
theorem map_moved {α : Type} {ps : List Place} {f : Place → α}
    (h : ∀ q ∈ ps, f (q.moved g A) = f q) : (ps.map (moved g A)).map f = ps.map f := by
  rw [map_map]
  exact map_congr_left h

/-- The descriptor with these fields of an annotation with this core. -/
def describe (fields : Fields) (core : Place) : Descriptor :=
  if core.isVoidCore then .standard fields []
  else
    match core.kind? with
    | some .functionType =>
      .closure fields (core.inputTypes.map decompose) ((outputTypes core.childType?).map decompose)
        (closureTraits fields core)
    | some .tupleType => .tuple fields (core.elementTypes.map decompose)
    | some .identifierType =>
      .standard fields (if core.isResult then core.argumentTypes.map decompose else [])
    | _ => .standard fields []

/-- A descriptor is made of the core and the fields. -/
theorem decompose_eq_describe (p : Place) : p.decompose = describe p.descriptorFields p.peel.core :=
  decompose_eq p

/-- A core that is moved has the same descriptor, if the types on its sides do. -/
theorem describe_moved_of {core : Place} (fields : Fields) (hcore : Token.Faithful g core.tree.tokens)
    (hsame : SameOptional g A core)
    (hstep : ∀ q, core.HoldsBelow q → Alike g A q → (q.moved g A).decompose = q.decompose) :
    describe fields (core.moved g A) = describe fields core := by
  unfold describe
  simp only [isVoidCore_moved A hcore.legible, kind?_moved]
  split
  · rfl
  split
  · next hkind =>
    have htype : ∀ q ∈ core.childType?, Token.Faithful g q.tree.tokens :=
      fun q hq => faithful_part hcore (contains_of_childType? hq)
    rw [inputTypes_moved A hcore.legible, childType?_moved, outputTypes_moved A (legible_of_faithful htype),
      closureTraits_moved A hcore]
    congr 1
    · exact map_moved fun q hq => hstep q (holdsBelow_of_inputTypes hq)
        (alike_of_inputTypes hcore (fun _ => hsame) hq)
    · exact map_moved fun q hq => hstep q (holdsBelow_of_functionOutputs hq)
        (alike_of_functionOutputs hcore hkind hq)
  · rw [elementTypes_moved]
    congr 1
    exact map_moved fun q hq => hstep q (holdsBelow_of_elementTypes hq)
      (alike_of_elementTypes hcore (fun _ => hsame) hq)
  · rw [isResult_moved A hcore.legible, argumentTypes_moved]
    split
    · congr 1
      exact map_moved fun q hq => hstep q (holdsBelow_of_argumentTypes hq)
        (alike_of_argumentTypes hcore hsame hq)
    · rfl
  · rfl

/-- **An annotation keeps its descriptor wherever it is alike.** The induction is on the size of the
annotation; the types on the sides of its core are smaller and again alike. -/
theorem decompose_moved (hg : Token.Faithful g p.tree.tokens) (hp : Alike g A p) :
    (p.moved g A).decompose = p.decompose := by
  induction hn : sizeOf p.tree using Nat.strongRecOn generalizing p with
  | ind n ih =>
    have hsize := sizeOf_core_peel p
    have hcore := faithful_part hg (contains_core_peel p)
    rw [decompose_eq_describe, decompose_eq_describe, descriptorFields_moved hg hp, peel_moved A hg.legible]
    refine describe_moved_of _ hcore (sameOptional_core hg hp.optional) ?_
    intro q hq halike
    have hlt := hq.below.sizeOf_lt
    exact ih (sizeOf q.tree) (by omega) (faithful_part hcore hq.contains) halike rfl

/-- By `describe_moved_of`. -/
theorem describe_moved {core : Place} (fields : Fields) (hcore : Token.Faithful g core.tree.tokens)
    (hsame : SameOptional g A core) : describe fields (core.moved g A) = describe fields core :=
  describe_moved_of fields hcore hsame fun _ hq halike =>
    decompose_moved (faithful_part hcore hq.contains) halike

end

end Place

end SwiftOutline
