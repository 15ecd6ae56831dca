import SwiftOutline.Proofs.Declaration.Moved
import SwiftOutline.Proofs.Grammar.Excerpt
import SwiftOutline.Proofs.Tree.Visit

/-!
# `Restated` — closures described by their own text

A closure keeps the text of its function type. That text is a type by itself, and its descriptor is the
closure again: only what belongs to the annotation around the function type, which are labels, attributes
and optionality, is left behind.
-/

namespace SwiftOutline

open SwiftOutline.Tree Place List

/-! ## What occurs in a descriptor -/

namespace Descriptor

/-- The descriptors directly inside: parameters, arguments, or inputs and outputs. -/
def parts : Descriptor → List Descriptor
  | standard _ parameters => parameters
  | tuple _ arguments => arguments
  | closure _ inputs outputs _ => inputs ++ outputs

/-- The second descriptor is the first or occurs in it, at any depth. -/
inductive Holds : Descriptor → Descriptor → Prop where
  | self (d : Descriptor) : Holds d d
  | part {d e c : Descriptor} (he : e ∈ d.parts) (h : Holds e c) : Holds d c

end Descriptor

namespace Place

variable {p q : Place}

/-- The types for which the descriptor of a type with this core holds a descriptor. -/
def sides (core : Place) : List Place :=
  if core.isVoidCore then []
  else
    match core.kind? with
    | some .functionType => core.inputTypes ++ outputTypes core.childType?
    | some .tupleType => core.elementTypes
    | some .identifierType => if core.isResult then core.argumentTypes else []
    | _ => []

theorem contains_of_sides (hq : q ∈ p.sides) : p.tree.Contains q.tree := by
  unfold sides at hq
  split at hq
  · cases hq
  split at hq
  · rcases mem_append.mp hq with hq | hq
    · exact (holdsBelow_of_inputTypes hq).contains
    · exact (holdsBelow_of_functionOutputs hq).contains
  · exact (holdsBelow_of_elementTypes hq).contains
  · split at hq
    · exact (holdsBelow_of_argumentTypes hq).contains
    · cases hq
  · cases hq

theorem sides_eq_nil {core : Place} (hfunction : core.kind? ≠ some .functionType)
    (htuple : core.kind? ≠ some .tupleType) (hidentifier : core.kind? ≠ some .identifierType) :
    core.sides = [] := by
  unfold sides
  split
  · rfl
  · split
    · next h => exact absurd h hfunction
    · next h => exact absurd h htuple
    · next h => exact absurd h hidentifier
    · rfl

theorem parts_describe (fields : Fields) (core : Place) :
    (describe fields core).parts = core.sides.map decompose := by
  by_cases hvoid : core.isVoidCore = true
  · rw [describe, sides, if_pos hvoid, if_pos hvoid]
    rfl
  by_cases hfunction : core.kind? = some .functionType
  · rw [describe, sides, if_neg hvoid, if_neg hvoid, hfunction]
    exact map_append.symm
  by_cases htuple : core.kind? = some .tupleType
  · rw [describe, sides, if_neg hvoid, if_neg hvoid, htuple]
    rfl
  by_cases hidentifier : core.kind? = some .identifierType
  · rw [describe, sides, if_neg hvoid, if_neg hvoid, hidentifier]
    by_cases hresult : core.isResult = true
    · simp only [hresult]
      rfl
    · simp only [hresult]
      rfl
  -- no other core has sides
  rw [sides_eq_nil hfunction htuple hidentifier, describe, if_neg hvoid]
  split
  · next h => exact absurd h hfunction
  · next h => exact absurd h htuple
  · next h => exact absurd h hidentifier
  · rfl

/-- What occurs directly in the descriptor of a type describes its sides. -/
theorem parts_decompose (p : Place) : p.decompose.parts = p.peel.core.sides.map decompose := by
  rw [decompose_eq_describe, parts_describe]

/-- **Whatever occurs in the descriptor of an annotation describes a part of it.** -/
theorem exists_place_of_holds {d : Descriptor} (h : p.decompose.Holds d) :
    ∃ q : Place, p.tree.Contains q.tree ∧ d = q.decompose := by
  generalize hp : p.decompose = e at h
  induction h generalizing p with
  | self => exact ⟨p, .self, hp.symm⟩
  | part he _ ih =>
    subst hp
    rw [parts_decompose] at he
    obtain ⟨q, hq, rfl⟩ := mem_map.mp he
    obtain ⟨r, hr, hd⟩ := ih rfl
    exact ⟨r, ((contains_core_peel p).trans (contains_of_sides hq)).trans hr, hd⟩

/-- What is known of an annotation that is described as a closure. -/
theorem decompose_eq_closure {fields : Fields} {inputs outputs : List Descriptor} {traits : ClosureTraits}
    (h : p.decompose = .closure fields inputs outputs traits) :
    p.peel.core.kind? = some .functionType ∧ p.peel.core.isVoidCore = false ∧
      inputs = p.peel.core.inputTypes.map decompose ∧ outputs =
        (outputTypes p.peel.core.childType?).map decompose ∧
      traits = closureTraits fields p.peel.core := by
  rw [decompose_eq] at h
  split at h
  · cases h
  · next hvoid =>
    split at h
    · next hkind =>
      cases h
      exact ⟨hkind, Bool.eq_false_iff.mpr hvoid, rfl, rfl, rfl⟩
    · cases h
    · cases h
    · cases h

/-- Nothing peels off a function type. -/
theorem peel_functionType (h : p.kind? = some .functionType) : p.peel.core = p := by
  have hnone : p.unwrapped? = none := by
    rw [unwrapped?, h]
  rw [peel]
  split
  · rfl
  · next q hq =>
    rw [hnone] at hq
    cases hq

theorem decompose_functionType (h : p.kind? = some .functionType) (hvoid : p.isVoidCore = false) :
    p.decompose = .closure p.descriptorFields (p.inputTypes.map decompose)
      ((outputTypes p.childType?).map decompose) (closureTraits p.descriptorFields p) := by
  rw [decompose_eq, peel_functionType h, hvoid, h]
  rfl

/-- A function type has the same two sides wherever it stands. -/
theorem sides_moved {g : Token → Token} {A : List Tree} {u : Tree} (hg : Token.Faithful g u.tokens)
    (hkind : u.kind? = some .functionType) :
    ((root u).moved g A).inputTypes.map decompose = (root u).inputTypes.map decompose ∧
      (outputTypes ((root u).moved g A).childType?).map decompose =
        (outputTypes (root u).childType?).map decompose := by
  have hnotTuple : (root u).isKind .tupleType = true → SameOptional g A (root u) := by
    intro htuple
    rw [isKind, Tree.isKind, show (root u).tree.kind? = some .functionType from hkind] at htuple
    cases htuple
  have htype : ∀ q ∈ (root u).childType?, Token.Faithful g q.tree.tokens :=
    fun q hq => faithful_part hg (contains_of_childType? hq)
  constructor
  · rw [inputTypes_moved A (p := root u) hg.legible]
    refine map_moved fun q hq => ?_
    exact decompose_moved (faithful_part hg (holdsBelow_of_inputTypes hq).contains)
      (alike_of_inputTypes hg hnotTuple hq)
  · rw [childType?_moved, outputTypes_moved A (legible_of_faithful htype)]
    refine map_moved fun q hq => ?_
    exact decompose_moved (faithful_part hg (holdsBelow_of_functionOutputs hq).contains)
      (alike_of_functionOutputs (p := root u) hg hkind hq)

end Place

/-! ## The text of a closure -/

/-- The two closures are of one type. Whether a closure escapes is no part of its type. -/
structure ClosureTraits.SameType (a b : ClosureTraits) : Prop where
  isVoidInput : a.isVoidInput = b.isVoidInput
  isVoidOutput : a.isVoidOutput = b.isVoidOutput
  isAsync : a.isAsync = b.isAsync
  isThrowing : a.isThrowing = b.isThrowing
  inputType : a.inputType = b.inputType
  outputType : a.outputType = b.outputType
  declarationText : a.declarationText = b.declarationText

theorem sameType_moved {g : Token → Token} {A A' : List Tree} {u : Tree} (hg : Token.Faithful g u.tokens)
    (fields fields' : Fields) :
    (closureTraits fields' ((root u).moved g A')).SameType
      (closureTraits fields ⟨u, A⟩) := by
  rw [← moved_id_root A u, closureTraits_moved A' (p := .root u) hg,
    closureTraits_moved A (p := .root u) (Token.faithful_id _)]
  constructor
  all_goals rfl

variable {source : String} {d : Descriptor}

/-- The descriptor of the text of a function type that was read from some source. -/
theorem decomposeType_text {cs : List Tree} {t : Token} {ts : List Token}
    (hu : (node .functionType cs).IsPart source)
    (htokens : (node .functionType cs).tokens = t :: ts) :
    decomposeType (node .functionType cs).text =
      .ok ((root (node .functionType cs)).moved (Token.excerpt t)
        [.node .typeRoot [(node .functionType cs).relabel (Token.excerpt t)]]).decompose := by
  rw [decomposeType, parseType_text hu htokens, moved_root, relabel_node]
  rfl

/-- **The text of a closure has that closure as its descriptor**, if the closure was read from a source. -/
theorem exists_closure_of_isPart {p : Place} {fields : Fields}
    {inputs outputs : List Descriptor} {traits : ClosureTraits} (hp : p.tree.IsPart source)
    (h : p.decompose = .closure fields inputs outputs traits) :
    ∃ fields' traits', decomposeType traits.declarationText = .ok (.closure fields' inputs outputs traits') ∧
      traits'.SameType traits := by
  obtain ⟨hkind, hvoid, rfl, rfl, rfl⟩ := decompose_eq_closure h
  have hpart := hp.contains (contains_core_peel p)
  generalize p.peel.core = core at hkind hvoid hpart
  obtain ⟨u, A⟩ := core
  cases u with
  | token t => cases hkind
  | node k cs =>
    cases hkind
    obtain ⟨t, ts, htokens⟩ := exists_cons_of_ne_nil (tokens_ne_nil_of_functionType hpart.every.here)
    obtain ⟨tokens, htokenize, hin⟩ := hpart.tokens
    have hg : Token.Faithful (Token.excerpt t) (node .functionType cs).tokens := by
      rw [htokens] at hin ⊢
      exact Token.faithful_excerpt (not_mem_of_isInfix htokenize hin)
    have hdecompose := decomposeType_text hpart htokens
    generalize [node .typeRoot [(node .functionType cs).relabel (Token.excerpt t)]] = A'
      at hdecompose
    have hhere := moved_id_root A (.node .functionType cs)
    have hid := Token.faithful_id (node .functionType cs).tokens
    have hvoid' : ((root (.node .functionType cs)).moved (Token.excerpt t) A').isVoidCore = false := by
      rw [← hhere, isVoidCore_moved A (p := .root _) hid.legible] at hvoid
      rw [isVoidCore_moved A' (p := .root _) hg.legible, hvoid]
    have hkind' := kind?_moved (Token.excerpt t) A' (.root (.node .functionType cs))
    have hsides := sides_moved (A := A) hid rfl
    have hsides' := sides_moved (A := A') hg rfl
    rw [hhere] at hsides
    rw [decompose_functionType (hkind'.trans rfl) hvoid', hsides'.1, hsides'.2, ← hsides.1,
      ← hsides.2] at hdecompose
    exact ⟨_, _, hdecompose, sameType_moved hg _ _⟩

/-! ## The descriptors of an outline -/

/-- The descriptors of a record. -/
def Declaration.descriptors : Declaration → List Descriptor
  | .function r => r.parameters ++ r.returns
  | .initializer r => r.parameters
  | .subscript r => r.parameters ++ r.returns
  | .binding r => r.declaredType.toList
  | .typealias r => [r.aliased]
  | .enumCase r => r.associatedValues
  | _ => []

/-- The descriptors of all records. -/
def Outline.descriptors (o : Outline) : List Descriptor :=
  o.functions.flatMap (fun r => r.parameters ++ r.returns) ++
    o.initializers.flatMap (·.parameters) ++
    o.subscripts.flatMap (fun r => r.parameters ++ r.returns) ++
    o.bindings.flatMap (·.declaredType.toList) ++
    o.typealiases.map (·.aliased) ++
    o.enumCases.flatMap (·.associatedValues)

theorem Outline.descriptors_locate (source : Option String) (o : Outline) :
    (o.locate source).descriptors = o.descriptors := by
  simp only [locate_eq_mapHeaders, descriptors, mapHeaders, flatMap_map, map_map, Function.comp_def]

theorem Outline.exists_of_mem_descriptors {ds : List Declaration}
    (h : d ∈ (ofDeclarations ds).descriptors) : ∃ r ∈ ds, d ∈ r.descriptors := by
  simp only [descriptors, ofDeclarations, mem_append, map_eq_flatMap] at h
  rcases h with ((((h | h) | h) | h) | h) | h
  all_goals
    refine exists_of_mem_filterMap ?_ h
    intro r a hr
    cases r <;> cases hr
    rfl

namespace Place

/-- The descriptor describes an annotation in the tree, or stands for one that is missing. -/
def Describes (t : Tree) (d : Descriptor) : Prop :=
  (∃ q : Place, t.Contains q.tree ∧ d = q.decompose) ∨ ∃ typeText, d = .ofType typeText

variable {p q : Place}

/-- The types that the entries of a clause hold. -/
def clauseTypes : Option Place → List Place
  | some clause => clause.childNodes.filterMap childType?
  | none => []

/-- The types of the parameters of a function. -/
def parameterTypes (p : Place) : List Place :=
  clauseTypes ((p.child? .functionSignature).bind (child? .parameterClause))

/-- The types of the associated values of an element of a case declaration. -/
def valueTypes (element : Place) : List Place := clauseTypes (element.child? .enumCaseParameterClause)

theorem parameters_eq_map (p : Place) : p.parameters = p.parameterTypes.map decompose := by
  rw [parameters, parameterTypes]
  cases (p.child? .functionSignature).bind (child? .parameterClause) with
  | none => rfl
  | some clause => rfl

theorem associatedValues_eq_map (p element : Place) :
    (p.enumCaseRecord element).associatedValues = element.valueTypes.map decompose := by
  rw [enumCaseRecord, valueTypes]
  cases element.child? .enumCaseParameterClause with
  | none => rfl
  | some clause => rfl

/-- The types for which the records of a declaration hold a descriptor. -/
def annotations (p : Place) : List Place :=
  match p.kind? with
  | some .functionDecl | some .subscriptDecl => p.parameterTypes ++ outputTypes p.returnType?
  | some .initializerDecl => p.parameterTypes
  | some .variableDecl =>
    (p.childNodes.filter (isKind .patternBinding)).filterMap fun b => (b.child? .typeClause).bind childType?
  | some .typealiasDecl => ((p.child? .typeInitializer).bind childType?).toList
  | some .enumCaseDecl => (p.childNodes.filter (isKind .enumCaseElement)).flatMap valueTypes
  | _ => []

theorem contains_of_clauseTypes {clause : Option Place} (hq : q ∈ clauseTypes clause) :
    ∃ c ∈ clause, c.tree.Contains q.tree := by
  cases clause with
  | none => cases hq
  | some c => exact ⟨c, rfl, (holdsBelow_of_entries hq).contains⟩

theorem contains_of_parameterTypes (hq : q ∈ p.parameterTypes) : p.tree.Contains q.tree := by
  obtain ⟨clause, hclause, hin⟩ := contains_of_clauseTypes hq
  exact (contains_of_bind_child? hclause).trans hin

theorem contains_of_annotations (hq : q ∈ p.annotations) : p.tree.Contains q.tree := by
  have hchild {c : Place} {k : NodeKind} (hc : c ∈ p.childNodes.filter (isKind k)) : p.tree.Contains c.tree :=
    contains_of_childNodes (mem_filter.mp hc).1
  unfold annotations at hq
  split at hq
  case h_1 | h_2 =>
    rcases mem_append.mp hq with hq | hq
    · exact contains_of_parameterTypes hq
    · obtain ⟨r, hr, hin⟩ := contains_of_outputTypes hq
      exact (contains_of_returnType? hr).trans hin
  case h_3 => exact contains_of_parameterTypes hq
  case h_4 =>
    obtain ⟨b, hb, hq⟩ := mem_filterMap.mp hq
    exact (hchild hb).trans (contains_of_bind_childType? hq)
  case h_5 => exact contains_of_bind_childType? (Option.mem_toList.mp hq)
  case h_6 =>
    obtain ⟨e, he, hq⟩ := mem_flatMap.mp hq
    obtain ⟨clause, hclause, hin⟩ := contains_of_clauseTypes hq
    exact (hchild he).trans ((contains_of_child? hclause).trans hin)
  case h_7 => cases hq

/-- The descriptors in the records of a declaration describe its annotations; a type alias without a
target has the descriptor of an empty type. -/
theorem exists_annotation_of_descriptors {r : Declaration} {d : Descriptor} (hr : r ∈ p.declarations)
    (hd : d ∈ r.descriptors) : (∃ q ∈ p.annotations, d = q.decompose) ∨ d = .ofType "" := by
  have hfind {qs : List Place} (hqs : ∀ q ∈ qs, q ∈ p.annotations) (h : d ∈ qs.map decompose) :
      (∃ q ∈ p.annotations, d = q.decompose) ∨ d = .ofType "" := by
    obtain ⟨q, hq, rfl⟩ := mem_map.mp h
    exact .inl ⟨q, hqs q hq, rfl⟩
  unfold annotations at hfind ⊢
  unfold declarations at hr
  split at hr
  case h_7 hkind | h_10 hkind =>
    simp only [hkind] at hfind ⊢
    cases mem_singleton.mp hr
    rcases mem_append.mp hd with hd | hd
    · exact hfind (fun q hq => mem_append_left _ hq) (parameters_eq_map p ▸ hd)
    · exact hfind (fun q hq => mem_append_right _ hq) hd
  case h_8 hkind =>
    simp only [hkind] at hfind ⊢
    cases mem_singleton.mp hr
    exact hfind (fun q hq => hq) (parameters_eq_map p ▸ hd)
  case h_11 hkind =>
    simp only [hkind]
    obtain ⟨b, hb, rfl⟩ := mem_map.mp hr
    obtain ⟨q, hq, rfl⟩ := Option.map_eq_some_iff.mp (Option.mem_toList.mp hd)
    exact .inl ⟨q, mem_filterMap.mpr ⟨b, hb, hq⟩, rfl⟩
  case h_12 hkind =>
    simp only [hkind]
    cases mem_singleton.mp hr
    cases mem_singleton.mp hd
    unfold typealiasRecord
    cases (p.child? .typeInitializer).bind childType? with
    | none => exact .inr rfl
    | some q => exact .inl ⟨q, mem_singleton_self q, rfl⟩
  case h_14 hkind =>
    simp only [hkind] at hfind ⊢
    obtain ⟨e, he, rfl⟩ := mem_map.mp hr
    exact hfind (fun q hq => mem_flatMap.mpr ⟨e, he, hq⟩) (associatedValues_eq_map p e ▸ hd)
  case h_19 => cases hr
  all_goals
    cases mem_singleton.mp hr
    cases hd

end Place

/-- An outline is that of the tree of its source. -/
theorem parseSource_of_outlineOf {o : Outline} (h : outlineOf source = .ok o) :
    ∃ tree, parseSource source = .ok tree ∧ o = (root tree).collect.locate (some source) := by
  obtain ⟨tree, hparse, rfl⟩ := ok_of_map_eq_ok h
  exact ⟨tree, hparse, rfl⟩

/-- **Every descriptor of an outline describes a part of the tree.** -/
theorem Place.describes_of_collect {tree : Tree} (hd : d ∈ (root tree).collect.descriptors) :
    Describes tree d := by
  obtain ⟨r, hr, hd⟩ := Outline.exists_of_mem_descriptors hd
  obtain ⟨p, hp, hr⟩ := mem_flatMap.mp hr
  rcases exists_annotation_of_descriptors hr hd with ⟨q, hq, rfl⟩ | rfl
  · exact .inl ⟨q, (contains_of_visited collectPolicy_ne_halt hp).trans (contains_of_annotations hq), rfl⟩
  · exact .inr ⟨"", rfl⟩

theorem describes_of_outlineOf {o : Outline} (h : outlineOf source = .ok o) (hd : d ∈ o.descriptors) :
    ∃ tree, tree.IsPart source ∧ Place.Describes tree d := by
  obtain ⟨tree, hparse, rfl⟩ := parseSource_of_outlineOf h
  rw [Outline.descriptors_locate] at hd
  exact ⟨tree, isPart_of_parseSource hparse, describes_of_collect hd⟩

/-- The descriptor of a text describes a part of its tree. -/
theorem parseType_of_decomposeType {text : String} (h : decomposeType text = .ok d) :
    ∃ tree, parseType text = .ok tree ∧ Place.Describes tree d := by
  obtain ⟨tree, hparse, rfl⟩ := ok_of_map_eq_ok h
  refine ⟨tree, hparse, ?_⟩
  split
  · next p hp => exact .inl ⟨p, contains_of_childType? hp, rfl⟩
  · exact .inr ⟨_, rfl⟩

theorem describes_of_decomposeType {text : String} (h : decomposeType text = .ok d) :
    ∃ tree, tree.IsPart text ∧ Place.Describes tree d := by
  obtain ⟨tree, hparse, hdescribes⟩ := parseType_of_decomposeType h
  exact ⟨tree, isPart_of_parseType hparse, hdescribes⟩

/-- Nothing but itself occurs in a type without parameters. -/
theorem eq_ofType_of_holds {typeText : String} (h : (Descriptor.ofType typeText).Holds d) :
    d = .ofType typeText := by
  cases h with
  | self => rfl
  | part he _ => cases he

/-- A closure in the descriptor of a type or of a declaration describes a part of some source. -/
theorem exists_place_of_closure {fields : Fields} {inputs outputs : List Descriptor}
    {traits : ClosureTraits}
    (hd : (∃ text, decomposeType text = .ok d) ∨ ∃ source o, outlineOf source = .ok o ∧ d ∈ o.descriptors)
    (hc : d.Holds (.closure fields inputs outputs traits)) :
    ∃ (source : String) (q : Place), q.tree.IsPart source ∧
      q.decompose = .closure fields inputs outputs traits := by
  have hdescribes : ∃ source tree, tree.IsPart source ∧ Place.Describes tree d := by
    rcases hd with ⟨text, h⟩ | ⟨source, o, h, hmem⟩
    · exact ⟨text, describes_of_decomposeType h⟩
    · exact ⟨source, describes_of_outlineOf h hmem⟩
  obtain ⟨source, tree, htree, ⟨p, hp, rfl⟩ | ⟨typeText, rfl⟩⟩ := hdescribes
  · obtain ⟨q, hq, hclosure⟩ := exists_place_of_holds hc
    exact ⟨source, q, htree.contains (hp.trans hq), hclosure.symm⟩
  · cases eq_ofType_of_holds hc

/-- **A closure is restated by its own text.** Take any closure that occurs, at any depth, in the descriptor
of a type or of a declaration. The text of its function type is a type, and describes a closure with the same
inputs, outputs, effects and texts. -/
theorem closure_restated {d : Descriptor} {fields : Fields} {inputs outputs : List Descriptor}
    {traits : ClosureTraits}
    (hd : (∃ text, decomposeType text = .ok d) ∨
      ∃ source o, outlineOf source = .ok o ∧ d ∈ o.descriptors)
    (hc : d.Holds (.closure fields inputs outputs traits)) :
    ∃ fields' traits', decomposeType traits.declarationText = .ok (.closure fields' inputs outputs traits') ∧
      traits'.SameType traits := by
  obtain ⟨source, q, hq, hclosure⟩ := exists_place_of_closure hd hc
  exact exists_closure_of_isPart hq hclosure

/-- The input of this closure escapes. Its text alone is the same closure, and does not escape. -/
theorem closure_restated_input :
    ∃ outer fields inputs outputs traits,
      decomposeType "(@escaping (Int) throws -> Bool) -> Void" = .ok outer ∧
      outer.Holds (.closure fields inputs outputs traits) ∧
      traits.isEscaping = true ∧ traits.declarationText = "(Int) throws -> Bool" ∧
      ∃ fields' traits',
        decomposeType "(Int) throws -> Bool" = .ok (.closure fields' inputs outputs traits') ∧
        traits'.SameType traits := by
  have hd : decomposeType "(@escaping (Int) throws -> Bool) -> Void" =
      .ok (.closure (.ofType "(@escaping (Int) throws -> Bool) -> Void")
        [.closure
          { attributes := ["escaping"], typeText := "@escaping (Int) throws -> Bool"
            bareType := "(Int) throws -> Bool" }
          [.ofType "Int"] [.ofType "Bool"]
          { isEscaping := true, isThrowing := true, inputType := "(Int)", outputType := "Bool"
            declarationText := "(Int) throws -> Bool" }]
        []
        { isVoidOutput := true, inputType := "(@escaping (Int) throws -> Bool)", outputType := "Void"
          declarationText := "(@escaping (Int) throws -> Bool) -> Void" }) :=
            eq_ok_of_toOption (by decide +kernel)
  have hinput {f g : Fields} {os js ps : List Descriptor} {t u : ClosureTraits} :
      (Descriptor.closure f [.closure g js ps u] os t).Holds (.closure g js ps u) :=
    .part mem_cons_self (.self _)
  have hrestated := closure_restated (.inl ⟨_, hd⟩) hinput
  exact ⟨_, _, _, _, _, hd, hinput, rfl, rfl, hrestated⟩

end SwiftOutline
