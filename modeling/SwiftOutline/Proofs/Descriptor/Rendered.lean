import SwiftOutline.Proofs.Descriptor.Context
import SwiftOutline.Proofs.Descriptor.Respaced
import SwiftOutline.Proofs.Grammar.ReadBack

/-!
# `Rendered` — lists of parameters described by their own text

A list of descriptors is written out with the names, the type, the ellipsis and the default value of
each. If the list describes the parameters of a declaration or the inputs of a closure, the text with an
arrow behind it is a function type, and the inputs of that type have the same descriptors again.

The types in the text have the labels and the texts of those in the source, and a type that stands by
itself is described by its labels and its text alone.
-/

namespace SwiftOutline

open SwiftOutline.Tree Place Descriptor List

/-! ## Labels put back -/

/-- The fields of a type with these labels. -/
def Fields.labelled (labels : Labels) (f : Fields) : Fields :=
  { f.withNames labels.name labels.secondName with
    variadic := labels.variadic
    defaultArgument := labels.defaultArgument }

/-- The descriptor with these labels. -/
def Descriptor.labelled (labels : Labels) : Descriptor → Descriptor
  | standard f parameters => standard (f.labelled labels) parameters
  | tuple f arguments => tuple (f.labelled labels) arguments
  | closure f inputs outputs traits => closure (f.labelled labels) inputs outputs traits

namespace Place

theorem describe_labelled (labels : Labels) (fields : Fields) (core : Place) :
    (describe fields core).labelled labels = describe (fields.labelled labels) core := by
  unfold describe
  split
  · rfl
  split
  · rfl
  · rfl
  · rfl
  · rfl

/-- A descriptor is what is left without labels, and the labels. -/
theorem labelled_unlabelled (q : Place) : q.decompose.unlabelled.labelled q.labels = q.decompose := by
  rw [decompose_eq_describe, describe_unlabelled, describe_labelled]
  rfl

/-- **A type that stands by itself is described by its labels and its text.** -/
theorem Standalone.decompose_eq {s s' : String} {q r : Place} (hq : Standalone s q) (hr : Standalone s' r)
    (hlabels : q.labels = r.labels) (htext : q.text = r.text) : q.decompose = r.decompose := by
  have hunlabelled : q.decompose.unlabelled = r.decompose.unlabelled := by
    have hdecompose := hq.decomposeType_text
    rw [htext, hr.decomposeType_text] at hdecompose
    exact (Except.ok.inj hdecompose).symm
  rw [← q.labelled_unlabelled, hunlabelled, hlabels, r.labelled_unlabelled]

theorem fields_decompose (q : Place) : q.decompose.fields = q.descriptorFields := by
  rw [decompose_eq]
  split
  · rfl
  split
  · rfl
  · rfl
  · rfl
  · rfl

end Place

/-! ## The types of parameters -/

/-- The place is that of the type of a parameter, with its labels around it. -/
def Parameter.HasType {all : List Token} (p : Parameter all) (q : Place) : Prop :=
  q.labels = p.labels ∧ q.text = Token.joined p.type

/-- The kind of the elements that a node of this kind lists. -/
def NodeKind.elementKind? : NodeKind → Option NodeKind
  | .parameterClause => some .functionParameter
  | .enumCaseParameterClause => some .enumCaseParameter
  | .tupleTypeElementList => some .tupleTypeElement
  | _ => none

section

variable {all : List Token} {k j : NodeKind}

/-- A list of elements has no other nodes. -/
theorem kind?_of_lists {t e : Tree} (ht : t.Accepted) (hkind : t.kind? = some k)
    (hk : k.elementKind? = some j) (he : e ∈ t.childNodes) : e.kind? = some j := by
  refine ht.isKind_of_mem hkind ?_ he
  cases k <;> cases hk <;> rfl

/-- **The elements of a list are parameters.** -/
theorem exists_parameters {es : List Tree} (hlaid : ∀ e ∈ es, e.Every (Rule.LaidOut all))
    (hkind : ∀ e ∈ es, e.kind?.any NodeKind.isElement = true) :
    ∃ ps : List (Parameter all), List.Forall₂ Parameter.Says ps es := by
  induction es with
  | nil => exact ⟨[], .nil⟩
  | cons e es ih =>
    obtain ⟨ps, hps⟩ := ih (fun e' he' => hlaid e' (mem_cons_of_mem e he'))
      fun e' he' => hkind e' (mem_cons_of_mem e he')
    have hfirst := hlaid e mem_cons_self
    have helement := hkind e mem_cons_self
    cases e with
    | token t => cases helement
    | node kind cs =>
      obtain ⟨n, hn, ts, rest, htail, hread⟩ := hfirst.here.2 helement
      obtain ⟨p, u, hcarries, htokens⟩ := exists_parameter hn htail hread fun c hc => hfirst.child hc
      refine ⟨p :: ps, .cons ⟨hcarries.elementLabels kind, u, hcarries.type kind, ?_⟩ hps⟩
      rw [Tree.text, htokens]

variable {ps : List (Parameter all)}

/-- The types in the entries of a list are those of the parameters that its elements are. -/
theorem hasType_of_says {clause : Place} (hkind : clause.kind? = some k) (hk : k.elementKind? = some j)
    {es : List Tree} (h : List.Forall₂ Parameter.Says ps es) (hes : ∀ e ∈ es, e.kind? = some j) :
    List.Forall₂ Parameter.HasType ps ((es.map clause.down).filterMap Place.childType?) := by
  induction h with
  | nil => exact .nil
  | @cons p e ps es hsays _ ih =>
    obtain ⟨hlabels, u, hu, htext⟩ := hsays
    have hplace : (clause.down e).childType? = some ((clause.down e).down u) := by
      rw [Place.childType?, show (clause.down e).tree.childType? = some u from hu]
      rfl
    rw [List.map_cons, filterMap_cons_some hplace]
    refine .cons ⟨?_, htext⟩ (ih fun e' he' => hes e' (mem_cons_of_mem e he'))
    have hcarrier : k.isCarrier = false ∧ j.isOptional = false ∧ j.isCarrier = true := by
      cases k <;> cases hk <;> exact ⟨rfl, rfl, rfl⟩
    show labels ⟨u, e :: clause.tree :: clause.above⟩ = _
    rw [labels_entry hkind hcarrier.1, hes e mem_cons_self, Option.any_some,
      Option.any_some, hcarrier.2.1, hcarrier.2.2, ← hlabels]
    rfl

/-- The types of the same parameters have the same descriptors. -/
theorem map_decompose_eq {qs rs : List Place} {s s' : String}
    (hqs : List.Forall₂ Parameter.HasType ps qs) (hrs : List.Forall₂ Parameter.HasType ps rs)
    (hqs' : ∀ q ∈ qs, Standalone s q) (hrs' : ∀ r ∈ rs, Standalone s' r) :
    qs.map decompose = rs.map decompose := by
  induction hqs generalizing rs with
  | nil =>
    cases hrs
    rfl
  | cons hq _ ih =>
    cases hrs with
    | cons hr hrs =>
      have hfirst := (hqs' _ mem_cons_self).decompose_eq (hrs' _ mem_cons_self)
          (hq.1.trans hr.1.symm)
        (hq.2.trans hr.2.symm)
      rw [List.map_cons, List.map_cons, hfirst, ih hrs (fun q hq => hqs' q (mem_cons_of_mem _ hq))
        fun r hr => hrs' r (mem_cons_of_mem _ hr)]

/-- Descriptors are written as the parameters are. -/
theorem map_description_eq {qs : List Place} (h : List.Forall₂ Parameter.HasType ps qs) :
    (qs.map decompose).map description = ps.map Parameter.description := by
  induction h with
  | nil => rfl
  | @cons p q ps qs hq _ ih =>
    have hfirst : q.decompose.description = p.description := by
      have hvariadic : p.variadic = q.labels.variadic := by rw [hq.1]; rfl
      rw [description, fields_decompose, Parameter.description, hvariadic, ← hq.1, ← hq.2]
      rfl
    rw [List.map_cons, List.map_cons, List.map_cons, ih, hfirst]

end

/-! ## A list read back from its text -/

/-- The text of the list with an arrow behind it is a type, and the list describes its inputs. -/
def Descriptor.ReadsBack (l : List Descriptor) : Prop :=
  ∃ fields outputs traits, decomposeType (describeList l ++ " -> Void") =
    .ok (.closure fields l outputs traits)

namespace Place

variable {p : Place}

theorem isKind_eq {k : NodeKind} (h : p.kind? = some k) (k' : NodeKind) : p.isKind k' = (k == k') := by
  rw [isKind, Tree.isKind, show p.tree.kind? = some k from h]
  rfl

theorem withoutAttributes_of_isKind {k : NodeKind} (hkind : p.isKind k = true) (hk : k ≠ .attributedType) :
    p.withoutAttributes = p := by
  have hplain : p.isKind .attributedType = false := by
    rw [isKind_eq (kind?_of_isKind hkind)]
    exact beq_false_of_ne hk
  unfold withoutAttributes
  split
  · rw [hplain]
    rfl
  · rfl

theorem elementTypes_eq (p : Place) : p.elementTypes = clauseTypes (p.child? .tupleTypeElementList) := by
  rw [elementTypes]
  cases p.child? .tupleTypeElementList with
  | none => rfl
  | some list => rfl

/-- Inputs that say something are the elements of the list. -/
theorem inputTypes_eq (h : isVoidList (p.inputTypes.map decompose) = false) :
    p.inputTypes = p.elementTypes := by
  unfold inputTypes at h ⊢
  split at h
  · cases h
  · next hnot => rw [if_neg hnot]

/-- A text with an arrow in it does not spell void. -/
theorem not_isVoidCore_of_arrow (hkind : p.kind? = some .functionType) (htext : '>' ∈ p.text.toList) :
    p.isVoidCore = false := by
  have hspelling : isVoidSpelling p.text = false := not_isVoidSpelling_of_mem htext rfl (by decide)
  rw [isVoidCore, hspelling, isKind_eq hkind]
  rfl

/-- An input list says nothing if the descriptors of its elements do. -/
theorem isVoidInput_eq (p : Place) : p.isVoidInput = isVoidList (p.elementTypes.map decompose) := by
  unfold isVoidInput
  match p.elementTypes with
  | [] => rfl
  | [q] =>
    show _ = isVoidSpelling q.decompose.fields.bareType
    rw [fields_decompose]
    rfl
  | q :: r :: _ => rfl

/-- A function type that is written from parameters takes them as its inputs. -/
theorem decomposeType_functionText {all : List Token} {source source' : String}
    (htokenize : tokenize source = .ok all) {ps : List (Parameter all)} {qs : List Place}
    (hqs : List.Forall₂ Parameter.HasType ps qs) (hstandalone : ∀ q ∈ qs, Standalone source' q)
    (hvoid : isVoidList (qs.map decompose) = false) : ∃ fields outputs traits,
      decomposeType (Parameter.functionText ps) =
        .ok (.closure fields (qs.map decompose) outputs traits) := by
  have hne : ps ≠ [] := by
    rintro rfl
    cases hqs
    cases hvoid
  obtain ⟨u, list, hparse, htext, hfunction, hlist, hsays⟩ := Parameter.parseType_functionText htokenize hne
  generalize hp : mk u [.node .typeRoot [u]] = p
  have htree : p.tree = u := by rw [← hp]
  have hkind : p.kind? = some .functionType := by rw [kind?, htree, hfunction]
  have hin : (Tree.node .typeRoot [u]).Contains p.tree := by
    rw [htree]
    exact .child .self (mem_singleton_self u)
  have hnotVoid : p.isVoidCore = false := by
    refine not_isVoidCore_of_arrow hkind ?_
    rw [text, htree, htext, Parameter.functionText, String.toList_append]
    exact mem_append_right _ (by decide)
  have hclause : p.child? .tupleTypeElementList = some (p.down list) := by
    rw [child?, htree, hlist]
    rfl
  -- the elements of the tree have the types of the parameters again
  have hrs : List.Forall₂ Parameter.HasType ps p.elementTypes := by
    have haccepted := (accepted_of_parse (.inr hparse)).contains (hin.trans (contains_of_child? hclause))
    have hlists := kind?_of_child? hclause
    rw [elementTypes_eq, hclause]
    exact hasType_of_says hlists rfl hsays fun e he => kind?_of_lists haccepted hlists rfl he
  have hpart := (isPart_of_parseType hparse).contains hin
  have hsame : qs.map decompose = p.elementTypes.map decompose := by
    refine map_decompose_eq hqs hrs hstandalone fun r hr =>
      standalone_of_elementTypes hpart (fun htuple => ?_) hr
    rw [isKind_eq hkind] at htuple
    cases htuple
  have hinputs : p.inputTypes = p.elementTypes := by
    rw [inputTypes, isVoidInput_eq, ← hsame, hvoid]
    rfl
  have hisType : u.isType = true := by rw [Tree.isType, hfunction]; rfl
  rw [decomposeType_of_parseType hparse hisType, hp, decompose_functionType hkind hnotVoid, hinputs, hsame]
  exact ⟨_, _, _, rfl⟩

section

variable {source : String} {tree : Tree} (h : parseSource source = .ok tree ∨ parseType source = .ok tree)
include h

/-- The entries of a list in an accepted tree are parameters. -/
theorem exists_hasType {clause : Place} (hin : tree.Contains clause.tree) {k j : NodeKind}
    (hkind : clause.kind? = some k) (hk : k.elementKind? = some j) :
    ∃ ps : List (Parameter tree.tokens), List.Forall₂ Parameter.HasType ps (clauseTypes (some clause)) := by
  have hclause := (accepted_of_parse h).contains hin
  have hlaid := (laidOut_of_parse h).contains hin
  have hkinds : ∀ e ∈ clause.tree.childNodes, e.kind? = some j :=
    fun e he => kind?_of_lists hclause hkind hk he
  have helement : j.isElement = true := by
    cases k <;> cases hk <;> rfl
  obtain ⟨ps, hsays⟩ := exists_parameters (fun e he => hlaid.child (mem_filter.mp he).1)
    (fun e he => by rw [hkinds e he]; exact helement)
  exact ⟨ps, hasType_of_says hkind hk hsays hkinds⟩

/-- **The entries of a clause are described by their own text.** -/
theorem readsBack_clauseTypes {clause : Option Place} {k j : NodeKind}
    (hclause : ∀ c ∈ clause, tree.Contains c.tree ∧ c.kind? = some k) (hk : k.elementKind? = some j)
    (hstandalone : ∀ q ∈ clauseTypes clause, Standalone source q)
    (hvoid : isVoidList ((clauseTypes clause).map decompose) = false) :
    ReadsBack ((clauseTypes clause).map decompose) := by
  cases clause with
  | none => cases hvoid
  | some clause =>
    obtain ⟨hin, hkind⟩ := hclause clause rfl
    have htokenize := tokenize_of_parse h
    obtain ⟨ps, hps⟩ := exists_hasType h hin hkind hk
    rw [ReadsBack, describeList, map_description_eq hps]
    exact decomposeType_functionText htokenize hps hstandalone hvoid

theorem readsBack_parameters {p : Place} (hp : tree.Contains p.tree)
    (hvoid : isVoidList p.parameters = false) : ReadsBack p.parameters := by
  have htree : tree.IsPart source := h.elim isPart_of_parseSource isPart_of_parseType
  rw [parameters_eq_map] at hvoid ⊢
  refine readsBack_clauseTypes (k := .parameterClause) h (fun c hc => ?_) rfl
    (fun q hq => standalone_of_parameterTypes (htree.contains hp) hq) hvoid
  obtain ⟨signature, hsignature, hc⟩ := Option.bind_eq_some_iff.mp hc
  exact ⟨hp.trans ((contains_of_child? hsignature).trans (contains_of_child? hc)), kind?_of_child? hc⟩

theorem readsBack_associatedValues {p element : Place} (hp : tree.Contains element.tree)
    (hkind : element.isKind .enumCaseElement = true)
    (hvoid : isVoidList (p.enumCaseRecord element).associatedValues = false) :
    ReadsBack (p.enumCaseRecord element).associatedValues := by
  have htree : tree.IsPart source := h.elim isPart_of_parseSource isPart_of_parseType
  rw [associatedValues_eq_map] at hvoid ⊢
  refine readsBack_clauseTypes h (fun c hc => ⟨hp.trans (contains_of_child? hc), kind?_of_child? hc⟩) rfl
    (fun q hq => ?_) hvoid
  exact standalone_of_clauseTypes (htree.contains hp) rfl (isKind_eq (kind?_of_isKind hkind) .tupleType) hq

/-- The inputs of a closure that describes a type of the tree. -/
theorem readsBack_inputs {q : Place} (hq : tree.Contains q.tree) {fields : Fields}
    {inputs outputs : List Descriptor} {traits : ClosureTraits}
    (hclosure : q.decompose = .closure fields inputs outputs traits) (hvoid : isVoidList inputs = false) :
    ReadsBack inputs := by
  have htree : tree.IsPart source := h.elim isPart_of_parseSource isPart_of_parseType
  obtain ⟨hkind, -, rfl, -, -⟩ := decompose_eq_closure hclosure
  have hin := hq.trans (contains_core_peel q)
  generalize q.peel.core = core at hkind hin hvoid
  -- inputs that say something are all the elements of the list
  have hinputs := (inputTypes_eq hvoid).trans core.elementTypes_eq
  rw [hinputs] at hvoid ⊢
  refine readsBack_clauseTypes h (fun c hc => ⟨hin.trans (contains_of_child? hc), kind?_of_child? hc⟩) rfl
    (fun r hr => ?_) hvoid
  exact standalone_of_clauseTypes (htree.contains hin) rfl (isKind_eq hkind .tupleType) hr

/-- The inputs of every closure that occurs in what describes a part of the tree. -/
theorem readsBack_of_holds {d : Descriptor} (hd : Describes tree d) {fields : Fields}
    {inputs outputs : List Descriptor} {traits : ClosureTraits}
    (hclosure : d.Holds (.closure fields inputs outputs traits)) (hvoid : isVoidList inputs = false) :
    ReadsBack inputs := by
  rcases hd with ⟨p, hp, rfl⟩ | ⟨typeText, rfl⟩
  · obtain ⟨q, hq, heq⟩ := exists_place_of_holds hclosure
    exact readsBack_inputs h (hp.trans hq) heq.symm hvoid
  · cases eq_ofType_of_holds hclosure

end

end Place

/-! ## The lists of an outline -/

/-- The lists of parameters in a record. -/
def Declaration.parameterLists : Declaration → List (List Descriptor)
  | .function r => [r.parameters]
  | .initializer r => [r.parameters]
  | .subscript r => [r.parameters]
  | .enumCase r => [r.associatedValues]
  | _ => []

/-- The lists of parameters in all records. -/
def Outline.parameterLists (o : Outline) : List (List Descriptor) :=
  o.functions.map (·.parameters) ++ o.initializers.map (·.parameters) ++ o.subscripts.map (·.parameters) ++
    o.enumCases.map (·.associatedValues)

theorem Outline.parameterLists_locate (source : Option String) (o : Outline) :
    (o.locate source).parameterLists = o.parameterLists := by
  simp only [locate_eq_mapHeaders, parameterLists, mapHeaders, map_map, Function.comp_def]

theorem Outline.exists_of_mem_parameterLists {ds : List Declaration} {l : List Descriptor}
    (h : l ∈ (ofDeclarations ds).parameterLists) : ∃ r ∈ ds, l ∈ r.parameterLists := by
  simp only [parameterLists, ofDeclarations, mem_append, map_eq_flatMap] at h
  rcases h with ((h | h) | h) | h
  all_goals
    refine exists_of_mem_filterMap ?_ h
    intro r a hr
    cases r <;> cases hr
    rfl

/-- **The lists in the records of a declaration** are described by their own text. -/
theorem Place.readsBack_of_declarations {source : String} {tree : Tree} (h : parseSource source = .ok tree)
    {p : Place} (hp : tree.Contains p.tree) {r : Declaration} {l : List Descriptor}
    (hr : r ∈ p.declarations) (hl : l ∈ r.parameterLists) (hvoid : isVoidList l = false) :
    ReadsBack l := by
  unfold declarations at hr
  split at hr
  case h_7 | h_8 | h_10 =>
    cases mem_singleton.mp hr
    cases mem_singleton.mp hl
    exact readsBack_parameters (.inl h) hp hvoid
  case h_11 =>
    obtain ⟨binding, -, rfl⟩ := mem_map.mp hr
    cases hl
  case h_14 =>
    obtain ⟨element, he, rfl⟩ := mem_map.mp hr
    cases mem_singleton.mp hl
    obtain ⟨hmem, hkind⟩ := mem_filter.mp he
    exact readsBack_associatedValues (.inl h) (hp.trans (contains_of_childNodes hmem)) hkind hvoid
  case h_19 => cases hr
  all_goals
    cases mem_singleton.mp hr
    cases hl

/-- The lists of parameters that occur in what is said of a source or of a type: those of the
declarations, and the inputs of closures at any depth. -/
inductive ParameterList : List Descriptor → Prop where
  | declared {source : String} {o : Outline} {l : List Descriptor} (h : outlineOf source = .ok o)
    (hl : l ∈ o.parameterLists) : ParameterList l
  | ofOutline {source : String} {o : Outline} {d : Descriptor} {fields : Fields} {l outputs : List Descriptor}
    {traits : ClosureTraits} (h : outlineOf source = .ok o) (hd : d ∈ o.descriptors)
    (hclosure : d.Holds (.closure fields l outputs traits)) : ParameterList l
  | ofType {text : String} {d : Descriptor} {fields : Fields} {l outputs :
    List Descriptor} {traits : ClosureTraits}
    (h : decomposeType text = .ok d) (hclosure : d.Holds (.closure fields l outputs traits)) : ParameterList l

/-- **Lists of parameters are read back from their text.** Take any list of parameters in what is said of
a source or of a type, unless it says nothing. Written out, with an arrow behind it, it is a function
type, and the inputs of the closure that describes this type are the list. -/
theorem parameterList_reads_back {l : List Descriptor} (hl : ParameterList l) (hvoid : isVoidList l = false) :
    ∃ fields outputs traits,
      decomposeType (Descriptor.describeList l ++ " -> Void") = .ok (.closure fields l outputs traits) := by
  cases hl with
  | declared h hl =>
    obtain ⟨tree, hparse, rfl⟩ := parseSource_of_outlineOf h
    rw [Outline.parameterLists_locate] at hl
    obtain ⟨r, hr, hl⟩ := Outline.exists_of_mem_parameterLists hl
    obtain ⟨p, hp, hr⟩ := mem_flatMap.mp hr
    have hin := Place.contains_of_visited Place.collectPolicy_ne_halt hp
    exact Place.readsBack_of_declarations hparse hin hr hl hvoid
  | ofOutline h hd hclosure =>
    obtain ⟨tree, hparse, rfl⟩ := parseSource_of_outlineOf h
    rw [Outline.descriptors_locate] at hd
    exact Place.readsBack_of_holds (.inl hparse) (Place.describes_of_collect hd) hclosure hvoid
  | ofType h hclosure =>
    obtain ⟨tree, hparse, hdescribes⟩ := parseType_of_decomposeType h
    exact Place.readsBack_of_holds (.inr hparse) hdescribes hclosure hvoid

/-- Parameters with an ellipsis, a closure, a comment inside a type, and a default value on two lines. -/
theorem parameterList_reads_back_function : ∃ text, text =
      "(_ a: [Int]..., b c: @escaping (x: Int) -> (), d: A /* of B */ . C = g(1,\n  \x7b 2 \x7d))" ∧
    ∃ l, ParameterList l ∧ isVoidList l = false ∧ Descriptor.describeList l = text ∧
    ∃ fields outputs traits, decomposeType (text ++ " -> Void") = .ok (.closure fields l outputs traits) := by
  refine exists_eq_and fun text htext => ?_
  obtain ⟨o, ho, l, hl, hvoid, hdescribed⟩ := exists_ok_of_test (x := outlineOf
      ("func f(_ a : [Int] ... , b c: @escaping (x: Int) -> (), d: A /* of B */ . C = g(1,\n  \x7b 2 \x7d))"
        ++ " \x7b\x7d"))
    (P := fun o => ∃ l ∈ o.parameterLists, isVoidList l = false ∧ Descriptor.describeList l = text) (by
    subst htext
    decide +kernel)
  have hlist : ParameterList l := .declared ho hl
  exact ⟨l, hlist, hvoid, hdescribed, hdescribed ▸ parameterList_reads_back hlist hvoid⟩

end SwiftOutline
