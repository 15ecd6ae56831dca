import SwiftOutline.Proofs.Descriptor.Restated
import SwiftOutline.Proofs.Grammar.TypeText

/-!
# `Context` — descriptors do not depend on the context

A descriptor is found by looking up from an annotation as well as down: labels stand in the element around it,
and an optional may stand above it. At every annotation that is described nothing but the labels comes from
above, and the annotation is read again from its own text. So the text alone has the same descriptor, without
the labels.
-/

namespace SwiftOutline

open SwiftOutline.Tree List

/-! ## Without labels -/

/-- The fields of a type that has no labels, ellipsis or default value. -/
def Fields.unlabelled (f : Fields) : Fields :=
  { f with
    name := ""
    secondName := ""
    variadic := false
    defaultArgument := none
    preferredName := none
    isLabelOmitted := false }

/-- The descriptor without labels. What occurs inside it keeps its own. -/
def Descriptor.unlabelled : Descriptor → Descriptor
  | standard f parameters => standard f.unlabelled parameters
  | tuple f arguments => tuple f.unlabelled arguments
  | closure f inputs outputs traits => closure f.unlabelled inputs outputs traits

namespace Place

variable {g : Token → Token} {A : List Tree} {p q : Place}

theorem describe_unlabelled (fields : Fields) (core : Place) :
    (describe fields core).unlabelled = describe fields.unlabelled core := by
  unfold describe
  split
  · rfl
  split
  · rfl
  · rfl
  · rfl
  · rfl

theorem descriptorFields_moved_unlabelled (hg : Token.Faithful g p.tree.tokens) (hp : SameOptional g A p) :
    (p.moved g A).descriptorFields.unlabelled = p.descriptorFields.unlabelled := by
  have hcore : hasOptionalAbove (p.peel.core.moved g A).above = hasOptionalAbove p.peel.core.above :=
    sameOptional_core hg hp
  simp only [Fields.unlabelled, descriptorFields, peel_moved A hg.legible, text_moved A hg,
    text_withoutAttributes_moved A hg, hcore]
  rfl

/-- **A descriptor without its labels is the same wherever the same optionals stand above.** -/
theorem unlabelled_moved (hg : Token.Faithful g p.tree.tokens) (hp : SameOptional g A p) :
    (p.moved g A).decompose.unlabelled = p.decompose.unlabelled := by
  rw [decompose_eq_describe, decompose_eq_describe, describe_unlabelled, describe_unlabelled,
    descriptorFields_moved_unlabelled hg hp, peel_moved A hg.legible]
  exact describe_moved _ (faithful_part hg (contains_core_peel p)) (sameOptional_core hg hp)

/-- A type that no element carries has no labels to lose. -/
theorem unlabelled_of_labels (h : p.labels = {}) : p.decompose.unlabelled = p.decompose := by
  have hfields : p.descriptorFields.unlabelled = p.descriptorFields := by
    simp only [Fields.unlabelled, descriptorFields, h]
    rfl
  rw [decompose_eq_describe, describe_unlabelled, hfields]

/-- An entry that is only a type has no labels. -/
theorem elementLabels_of_isType {u : Tree} (hu : u.isType = true) (kind : NodeKind) :
    (node kind [u]).elementLabels = {} := by
  cases u with
  | token t => cases hu
  | node k cs =>
    have hchild : (node kind [.node k cs]).child? .initializerClause = none := by
      cases k <;> first | rfl | cases hu
    rw [elementLabels, initializer?, hchild]
    rfl

/-- The only type of a text has no labels. -/
theorem labels_typeRoot {u : Tree} (hu : u.isType = true) : labels ⟨u, [.node .typeRoot [u]]⟩ = {} :=
  elementLabels_of_isType hu .typeRoot

/-! ## Described types -/

/-- The types that are described in a tree: the type that is all of it, those in the declarations that
the walk comes to, and those inside a type that is described. -/
inductive Described (tree : Tree) : Place → Prop where
  | sole {q : Place} (hroot : tree.isKind .typeRoot = true) (h : (root tree).childType? = some q) :
    Described tree q
  | annotated {p q : Place} (hp : p ∈ (root tree).visited collectPolicy) (hq : q ∈ p.annotations) :
    Described tree q
  | part {p q : Place} (hp : Described tree p) (hq : q ∈ p.peel.core.sides) : Described tree q

/-- Described types are parts of the tree. -/
theorem contains_of_described {tree : Tree} (hq : Described tree q) : tree.Contains q.tree := by
  induction hq with
  | sole _ h => exact contains_of_childType? (p := root tree) h
  | annotated hp hq => exact (contains_of_visited collectPolicy_ne_halt hp).trans (contains_of_annotations hq)
  | @part p q _ hq ih => exact ih.trans ((contains_core_peel p).trans (contains_of_sides hq))

/-- Whatever occurs in the descriptor of a described type describes such a type. -/
theorem exists_described_of_holds {tree : Tree} (hp : Described tree p) {d : Descriptor}
    (h : p.decompose.Holds d) : ∃ q, Described tree q ∧ d = q.decompose := by
  generalize he : p.decompose = e at h
  induction h generalizing p with
  | self => exact ⟨p, hp, he.symm⟩
  | part hpart _ ih =>
    subst he
    rw [parts_decompose] at hpart
    obtain ⟨q, hq, rfl⟩ := mem_map.mp hpart
    exact ih (.part hp hq) rfl

/-! ## Types that stand by themselves -/

/-- The type was read as one from some source, and no optional above it counts as its own. -/
structure Standalone (source : String) (q : Place) : Prop where
  part : q.tree.IsPart source
  isType : q.isType = true
  read : q.tree.ReadAsType
  noOptional : hasOptionalAbove q.above = false

section

variable {source : String}

variable {k : NodeKind}

/-- The type directly below a node is a node among its children. -/
theorem exists_node_of_childType? (hkind : p.kind? = some k) (hq : p.childType? = some q) :
    ∃ cs j ds, p.tree = .node k cs ∧ q = p.down (.node j ds) ∧ .node j ds ∈ cs ∧ j.isType = true := by
  obtain ⟨c, hc, rfl⟩ := Option.map_eq_some_iff.mp hq
  have htype : c.isType = true := List.find?_some hc
  obtain ⟨t, above⟩ := p
  cases t with
  | token t => cases hkind
  | node k cs =>
    cases hkind
    cases c with
    | token t => cases htype
    | node j ds => exact ⟨cs, j, ds, rfl, rfl, mem_of_find?_eq_some hc, htype⟩

/-- The type that a node holds was read as a type. -/
theorem readAsType_of_holder (hp : p.tree.IsPart source) (hkind : p.kind? = some k)
    (hk : k.holdsType = true) (hq : p.childType? = some q) : q.isType = true ∧ q.tree.ReadAsType := by
  obtain ⟨cs, j, ds, htree, rfl, hmem, htype⟩ := exists_node_of_childType? hkind hq
  have hevery := hp.every
  rw [htree] at hevery
  exact ⟨htype, hevery.here.holder hk hmem htype⟩

/-- The search for an optional from the type that a node holds ends at the node, unless that is an
element of a tuple. -/
theorem hasOptionalAbove_of_holder {e l t : Tree} {above : List Tree} (he : e.kind? = some k)
    (hk : k.holdsType = true)
    (htuple : t.isKind .tupleType = true → (transparent? ⟨t, above⟩).isSome = true →
      hasOptionalAbove above = false) :
    hasOptionalAbove (e :: l :: t :: above) = false := by
  by_cases helement : k = .tupleTypeElement
  · subst helement
    rw [hasOptionalAbove_element he]
    cases ht : t.isKind .tupleType with
    | false => rfl
    | true =>
      cases htransparent : (transparent? ⟨t, above⟩).isSome with
      | false => rfl
      | true => rw [htuple ht htransparent, Bool.and_false]
  · refine hasOptionalAbove_of_stops he ?_
    cases k <;> first | rfl | exact absurd rfl helement | cases hk

/-- The types in the entries of a list stand by themselves, if no optional reaches into a tuple around it. -/
theorem standalone_of_entries {list : Place} (hp : p.tree.IsPart source)
    (hlist : p.child? k = some list) (hk : k.listsHolders = true)
    (htuple : p.isKind .tupleType = true → p.transparent?.isSome = true → hasOptionalAbove p.above = false)
    (hq : q ∈ list.childNodes.filterMap childType?) : Standalone source q := by
  have hpart := hp.contains (contains_of_child? hlist)
  obtain ⟨entry, hentry, htype⟩ := mem_filterMap.mp hq
  have hentryPart := hpart.contains (contains_of_childNodes hentry)
  obtain ⟨l, hl, rfl⟩ := Option.map_eq_some_iff.mp hlist
  obtain ⟨e, he, rfl⟩ := mem_map.mp hentry
  -- the list has nothing but nodes that hold a type, so the entry is one
  obtain ⟨j, hj, hholds⟩ : ∃ j, e.kind? = some j ∧ j.holdsType = true := by
    obtain ⟨hmem, hnode⟩ := mem_filter.mp he
    have hkind := Tree.kind?_of_child? hl
    cases l with
    | token t => cases hkind
    | node k ds =>
      cases hkind
      cases e with
      | token t => cases hnode
      | node j cs => exact ⟨j, rfl, hpart.every.here.list hk hmem⟩
  obtain ⟨hisType, hread⟩ := readAsType_of_holder hentryPart hj hholds htype
  refine ⟨hentryPart.contains (contains_of_childType? htype), hisType, hread, ?_⟩
  obtain ⟨c, hc, rfl⟩ := Option.map_eq_some_iff.mp htype
  exact hasOptionalAbove_of_holder hj hholds htuple

theorem standalone_of_elementTypes (hp : p.tree.IsPart source)
    (htuple : p.isKind .tupleType = true → p.transparent?.isSome = true → hasOptionalAbove p.above = false)
    (hq : q ∈ p.elementTypes) : Standalone source q := by
  unfold elementTypes at hq
  split at hq
  · next list hlist => exact standalone_of_entries hp hlist rfl htuple hq
  · cases hq

/-- The type in a clause stands by itself. -/
theorem standalone_of_clause (hp : p.tree.IsPart source) (hkind : p.kind? = some k)
    (hk : k.holdsType = true) (hstops : k.stopsSearch = true) (hq : p.childType? = some q) :
    Standalone source q := by
  obtain ⟨hisType, hread⟩ := readAsType_of_holder hp hkind hk hq
  refine ⟨hp.contains (contains_of_childType? hq), hisType, hread, ?_⟩
  obtain ⟨c, hc, rfl⟩ := Option.map_eq_some_iff.mp hq
  exact hasOptionalAbove_of_stops hkind hstops

theorem standalone_of_functionType (hp : p.tree.IsPart source) (hkind : p.kind? = some .functionType)
    (hq : p.childType? = some q) : Standalone source q := by
  have hpart := hp.contains (contains_of_childType? hq)
  obtain ⟨cs, j, ds, htree, rfl, hmem, htype⟩ := exists_node_of_childType? hkind hq
  have hevery := hp.every
  rw [htree] at hevery
  exact ⟨hpart, htype, readAsType_of_functionType hevery.here hmem htype, hasOptionalAbove_of_stops hkind rfl⟩

/-- The outputs of a function stand by themselves if its result does: the elements of a tuple have nothing but
the result above them. -/
theorem standalone_of_outputTypes {result : Option Place} (hresult : ∀ r ∈ result, Standalone source r)
    (hq : q ∈ outputTypes result) : Standalone source q := by
  unfold outputTypes at hq
  split at hq
  · cases hq
  · next r =>
    have hr := hresult r rfl
    split at hq
    · cases hq
    split at hq
    · exact standalone_of_elementTypes hr.part (fun _ _ => hr.noOptional) hq
    · cases mem_singleton.mp hq
      exact hr

/-- Nothing more peels off a core. -/
theorem unwrapped?_core (p : Place) : p.peel.core.unwrapped? = none := by
  fun_induction peel p with
  | case1 p h => exact h
  | case2 p q h _ ih => exact ih

/-- The types on the sides of a core stand by themselves. -/
theorem standalone_of_sides (hp : p.tree.IsPart source) (hq : q ∈ p.peel.core.sides) :
    Standalone source q := by
  have hcore := hp.contains (contains_core_peel p)
  have hnone := unwrapped?_core p
  generalize p.peel.core = core at hcore hnone hq
  -- a tuple that is a core does not only group, so no optional above it counts for its elements
  have htuple : core.isKind .tupleType = true → core.transparent?.isSome = true →
      hasOptionalAbove core.above = false := by
    intro hkind htransparent
    have hblocked : core.transparent? = none := by
      rw [← hnone, unwrapped?, kind?_of_isKind hkind]
    rw [hblocked] at htransparent
    cases htransparent
  unfold sides at hq
  split at hq
  · cases hq
  split at hq
  · next hkind =>
    rcases mem_append.mp hq with hq | hq
    · unfold inputTypes at hq
      split at hq
      · cases hq
      · exact standalone_of_elementTypes hcore htuple hq
    · exact standalone_of_outputTypes (fun r hr => standalone_of_functionType hcore hkind hr) hq
  · exact standalone_of_elementTypes hcore htuple hq
  · split at hq
    · unfold argumentTypes at hq
      split at hq
      · next clause hclause => exact standalone_of_entries hcore hclause rfl htuple hq
      · cases hq
    · cases hq
  · cases hq

theorem standalone_of_clauseTypes (hp : p.tree.IsPart source) (hk : k.listsHolders = true)
    (hnotTuple : p.isKind .tupleType = false) (hq : q ∈ clauseTypes (p.child? k)) : Standalone source q := by
  cases hclause : p.child? k with
  | none =>
    rw [hclause] at hq
    cases hq
  | some clause =>
    rw [hclause] at hq
    refine standalone_of_entries hp hclause hk ?_ hq
    rw [hnotTuple]
    nofun

/-- The type in a clause of a node stands by itself. -/
theorem standalone_of_bind_childType? (hp : p.tree.IsPart source) (hk : k.holdsType = true)
    (hstops : k.stopsSearch = true) (hq : (p.child? k).bind childType? = some q) : Standalone source q := by
  obtain ⟨clause, hclause, hq⟩ := Option.bind_eq_some_iff.mp hq
  exact standalone_of_clause (hp.contains (contains_of_child? hclause)) (kind?_of_child? hclause) hk hstops hq

theorem standalone_of_parameterTypes (hp : p.tree.IsPart source) (hq : q ∈ p.parameterTypes) :
    Standalone source q := by
  unfold parameterTypes at hq
  cases hsignature : p.child? .functionSignature with
  | none =>
    rw [hsignature] at hq
    cases hq
  | some signature =>
    rw [hsignature] at hq
    refine standalone_of_clauseTypes (hp.contains (contains_of_child? hsignature)) rfl ?_ hq
    rw [isKind, Tree.isKind, show signature.tree.kind? = _ from kind?_of_child? hsignature]
    rfl

/-- The return type of a function stands by itself. -/
theorem standalone_of_result (hp : p.tree.IsPart source) (hq : p.returnType? = some q) :
    Standalone source q := by
  obtain ⟨clause, hclause, hq⟩ := Option.bind_eq_some_iff.mp hq
  obtain ⟨signature, hsignature, hclause⟩ := Option.bind_eq_some_iff.mp hclause
  exact standalone_of_clause
    ((hp.contains (contains_of_child? hsignature)).contains (contains_of_child? hclause))
    (kind?_of_child? hclause) rfl rfl hq

theorem standalone_of_returnType? (hp : p.tree.IsPart source) (hq : q ∈ outputTypes p.returnType?) :
    Standalone source q :=
  standalone_of_outputTypes (fun _ hr => standalone_of_result hp hr) hq

/-- The annotations of a declaration stand by themselves. -/
theorem standalone_of_annotations (hp : p.tree.IsPart source) (hq : q ∈ p.annotations) :
    Standalone source q := by
  have hchild {c : Place} {k : NodeKind} (hc : c ∈ p.childNodes.filter (isKind k)) :
      c.tree.IsPart source ∧ c.isKind k = true :=
    ⟨hp.contains (contains_of_childNodes (mem_filter.mp hc).1), (mem_filter.mp hc).2⟩
  unfold annotations at hq
  split at hq
  case h_1 | h_2 =>
    rcases mem_append.mp hq with hq | hq
    · exact standalone_of_parameterTypes hp hq
    · exact standalone_of_returnType? hp hq
  case h_3 => exact standalone_of_parameterTypes hp hq
  case h_4 =>
    obtain ⟨b, hb, hq⟩ := mem_filterMap.mp hq
    exact standalone_of_bind_childType? (hchild hb).1 rfl rfl hq
  case h_5 => exact standalone_of_bind_childType? hp rfl rfl (Option.mem_toList.mp hq)
  case h_6 =>
    obtain ⟨e, he, hq⟩ := mem_flatMap.mp hq
    refine standalone_of_clauseTypes (hchild he).1 rfl ?_ hq
    rw [isKind, Tree.isKind, show e.tree.kind? = _ from kind?_of_isKind (hchild he).2]
    rfl
  case h_7 => cases hq

/-- **All described types stand by themselves.** -/
theorem standalone_of_described {tree : Tree} (htree : tree.IsPart source) (hq : Described tree q) :
    Standalone source q := by
  induction hq with
  | sole hroot h => exact standalone_of_clause htree (kind?_of_isKind (p := root tree) hroot) rfl rfl h
  | annotated hp hq =>
    exact standalone_of_annotations (htree.contains (contains_of_visited collectPolicy_ne_halt hp)) hq
  | part _ hq ih => exact standalone_of_sides ih.part hq

/-- The descriptor of a text that is one type. -/
theorem decomposeType_of_parseType {text : String} {u : Tree} (h : parseType text = .ok (.node .typeRoot [u]))
    (hu : u.isType = true) : decomposeType text = .ok (Place.mk u [.node .typeRoot [u]]).decompose := by
  have hchild : (root (.node .typeRoot [u])).childType? = some ⟨u, [.node .typeRoot [u]]⟩ := by
    show Option.map _ ([u].find? Tree.isType) = _
    rw [List.find?_cons, hu]
    rfl
  simp only [decomposeType, h, Except.map, hchild]

/-- **The text of a type that stands by itself has its descriptor**, but for the labels. -/
theorem Standalone.decomposeType_text (h : Standalone source q) :
    decomposeType q.text = .ok q.decompose.unlabelled := by
  obtain ⟨u, above⟩ := q
  obtain ⟨t, ts, htokens⟩ := exists_cons_of_ne_nil h.read.tokens_ne_nil
  obtain ⟨tokens, htokenize, hin⟩ := h.part.tokens
  have hg : Token.Faithful (Token.excerpt t) u.tokens := by
    rw [htokens] at hin ⊢
    exact Token.faithful_excerpt (not_mem_of_isInfix htokenize hin)
  have hisType : (u.relabel (Token.excerpt t)).isType = true := by
    rw [Tree.isType, kind?_relabel]
    exact h.isType
  rw [text, decomposeType_of_parseType (parseType_of_readAsType h.part h.read htokens) hisType,
    ← unlabelled_of_labels (labels_typeRoot hisType), ← moved_root]
  -- both where it stands and in its own text, no optional above the type counts
  have halone : SameOptional (Token.excerpt t) [.node .typeRoot [u.relabel (Token.excerpt t)]] (root u) :=
    hasOptionalAbove_of_stops rfl rfl
  have hhere : SameOptional id above (root u) := h.noOptional
  rw [unlabelled_moved (p := root u) hg halone, ← moved_id_root above u,
    unlabelled_moved (p := root u) (Token.faithful_id _) hhere]

end

end Place

/-- The types of a tree are described alike in their place and alone. -/
structure Tree.ContextFree (tree : Tree) : Prop where
  /-- The text of a described type has the descriptor of the type where it stands, but for the outermost
  labels. -/
  alone : ∀ q, Place.Described tree q → decomposeType q.text = .ok q.decompose.unlabelled
  /-- Descriptors inside are those of described types again, at any depth. -/
  inside : ∀ q, Place.Described tree q → ∀ d, q.decompose.Holds d →
    ∃ r, Place.Described tree r ∧ d = r.decompose
  /-- So are all that the outline describes. -/
  outline : ∀ d ∈ (Place.root tree).collect.descriptors,
    (∃ q, Place.Described tree q ∧ d = q.decompose) ∨ d = .ofType ""

/-- **Descriptors do not depend on the context**, in the tree of a source or of a type
(`Place.standalone_of_described`). -/
theorem decompose_context_free {source : String} {tree : Tree}
    (h : parseSource source = .ok tree ∨ parseType source = .ok tree) : tree.ContextFree := by
  have htree : tree.IsPart source := h.elim isPart_of_parseSource isPart_of_parseType
  refine ⟨?_, ?_, ?_⟩
  · intro q hq
    exact (Place.standalone_of_described htree hq).decomposeType_text
  · intro q hq d hd
    exact Place.exists_described_of_holds hq hd
  · intro d hd
    obtain ⟨r, hr, hd⟩ := Outline.exists_of_mem_descriptors hd
    obtain ⟨p, hp, hr⟩ := mem_flatMap.mp hr
    rcases Place.exists_annotation_of_descriptors hr hd with ⟨q, hq, rfl⟩ | hempty
    · exact .inl ⟨q, .annotated hp hq, rfl⟩
    · exact .inr hempty

/-- A parameter with two names and a default value, whose type is a tuple with a label. The text of the
parameter is the same tuple without names, and the text of its element the same closure without the
label. -/
theorem decompose_context_free_parameter : ∃ tree,
    parseSource "func f(x y: (a: Int, b: (C?) -> (D, E))! = z) \x7b\x7d" = .ok tree ∧
    tree.ContextFree ∧ ∃ q r, Place.Described tree q ∧ Place.Described tree r ∧
      q.text = "(a: Int, b: (C?) -> (D, E))!" ∧ r.text = "(C?) -> (D, E)" ∧
      q.decompose.description = "x y: (a: Int, b: (C?) -> (D, E))! = z" ∧
      r.decompose.description = "b: (C?) -> (D, E)" := by
  obtain ⟨tree, hparse, p, hp, q, hq, r, hr, htexts⟩ := exists_ok_of_test
    (x := parseSource "func f(x y: (a: Int, b: (C?) -> (D, E))! = z) \x7b\x7d") (P := fun tree =>
      ∃ p ∈ (Place.root tree).visited Place.collectPolicy, ∃ q ∈ p.annotations, ∃ r ∈ q.peel.core.sides,
        q.text = "(a: Int, b: (C?) -> (D, E))!" ∧ r.text = "(C?) -> (D, E)" ∧
        q.decompose.description = "x y: (a: Int, b: (C?) -> (D, E))! = z" ∧
        r.decompose.description = "b: (C?) -> (D, E)") (by decide +kernel)
  have hdescribed : Place.Described tree q := .annotated hp hq
  exact ⟨tree, hparse, decompose_context_free (.inl hparse), q, r, hdescribed, .part hdescribed hr, htexts⟩

end SwiftOutline
