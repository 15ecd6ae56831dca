import SwiftOutline.Proofs.Declaration.Reachable
import SwiftOutline.Proofs.Descriptor.Rendered

/-!
# `VoidFlags` — the void flags and the lists beside them

A closure says with a flag that it takes nothing, or gives nothing, and has beside it the list of its
inputs, or of its outputs. The input flag is what the list says. The output flag is read from the return
type as a whole, before a tuple is replaced by its elements: `() -> (x: Void)` gives a list of results,
and that the only one of them is void does not make it void. So the output flag and the list agree,
except where the results of a tuple happen to say nothing.
-/

namespace SwiftOutline

open SwiftOutline.Tree

/-- A return type that lists results: a tuple that does not spell void. -/
def isResultList (returnType : String) : Bool :=
  !isVoidSpelling returnType &&
    (parseType returnType).toOption.any fun tree => tree.childType?.any (·.isKind .tupleType)

/-- The flag of a return type says that there are no results. It is as the list of the results says, just
if that is not a list which a tuple is replaced by and which says nothing. -/
structure VoidFlag (flag : Bool) (results : List Descriptor) (returnType : Option String) : Prop where
  empty : flag = true → results = []
  agrees : flag = isVoidList results ↔ ¬ (returnType.any isResultList = true ∧ isVoidList results = true)

namespace Place

variable {source : String} {p q : Place}

/-- The input flag is as the list of the inputs says. -/
theorem isVoidInput_eq_inputs (p : Place) : p.isVoidInput = isVoidList (p.inputTypes.map decompose) := by
  unfold inputTypes
  split
  · next h => exact h
  · exact isVoidInput_eq p

/-- Whether a type that stands by itself lists results. -/
theorem Standalone.isResultList_text (h : Standalone source q) :
    isResultList q.text = (!isVoidSpelling q.text && q.isKind .tupleType) := by
  obtain ⟨t, ts, htokens⟩ := List.exists_cons_of_ne_nil h.read.tokens_ne_nil
  have hparse : parseType q.text = _ := parseType_of_readAsType h.part h.read htokens
  have htype : (q.tree.relabel (Token.excerpt t)).isType = true := by
    rw [isType_relabel]
    exact h.isType
  have hchild : (Tree.node .typeRoot [q.tree.relabel (Token.excerpt t)]).childType? =
      some (q.tree.relabel (Token.excerpt t)) := by
    rw [Tree.childType?, children, List.find?_cons, htype]
  rw [isResultList, hparse, Except.toOption, Option.any_some, hchild, Option.any_some, isKind_relabel]
  rfl

/-- **The flag of a return type and the list of its results.** -/
theorem voidFlag_of_standalone (h : Standalone source q) :
    VoidFlag (isVoidOutput (some q)) ((outputTypes (some q)).map decompose) (some q.text) := by
  rw [outputTypes, isVoidOutput]
  by_cases htuple : q.isKind .tupleType = true
  · -- a tuple is a spelling of void, or is replaced by its elements
    have hlist : isResultList q.text = !isVoidSpelling q.text := by
      rw [h.isResultList_text, htuple, Bool.and_true]
    rw [withoutAttributes_of_isKind htuple (by decide), htuple]
    cases hvoid : isVoidSpelling q.text with
    | true => exact ⟨fun _ => rfl, by simp [hlist, hvoid, isVoidList]⟩
    | false => exact ⟨fun h => absurd h Bool.false_ne_true, by simp [hlist, hvoid]⟩
  · -- any other type stands for itself
    have hlist : isResultList q.text = false := by
      rw [h.isResultList_text, Bool.eq_false_iff.mpr htuple, Bool.and_false]
    rw [Bool.eq_false_iff.mpr htuple]
    cases hvoid : isVoidSpelling q.withoutAttributes.text with
    | true => exact ⟨fun _ => rfl, by simp [hlist, isVoidList]⟩
    | false =>
      have hself : isVoidSpelling q.decompose.fields.bareType = false := by
        rw [fields_decompose]
        exact hvoid
      exact ⟨fun h => absurd h Bool.false_ne_true, by simp [hlist, isVoidList, hself]⟩

/-- The flags of a closure that describes a type read from some source. -/
theorem voidFlags_of_closure (hp : p.tree.IsPart source) {fields : Fields}
    {inputs outputs : List Descriptor} {traits : ClosureTraits}
    (h : p.decompose = .closure fields inputs outputs traits) :
    traits.isVoidInput = isVoidList inputs ∧
      VoidFlag traits.isVoidOutput outputs (some traits.outputType) := by
  obtain ⟨hkind, -, rfl, rfl, rfl⟩ := decompose_eq_closure h
  have hcore := hp.contains (contains_core_peel p)
  generalize p.peel.core = core at hkind hcore
  refine ⟨core.isVoidInput_eq_inputs, ?_⟩
  rw [closureTraits]
  dsimp only
  cases hresult : core.childType? with
  | none =>
    -- a function type that was read has a result
    obtain ⟨tree, above⟩ := core
    cases tree with
    | token t => cases hkind
    | node kind cs =>
      cases hkind
      obtain ⟨_, _, _, _, _, result, rfl, -, -, -, htype, -⟩ := exists_signature hcore.every.here
      rw [childType?, Option.map_eq_none_iff, Tree.childType?, List.find?_eq_none] at hresult
      exact absurd htype (hresult result (by simp [children]))
  | some q => exact voidFlag_of_standalone (standalone_of_functionType hcore hkind hresult)

/-- The flag of a function that was read from some source. -/
theorem voidFlag_functionRecord (hp : p.tree.IsPart source) :
    VoidFlag p.functionRecord.isVoidReturn p.functionRecord.returns p.functionRecord.returnType := by
  rw [functionRecord]
  dsimp only
  rw [returns]
  cases hresult : p.returnType? with
  | none => exact ⟨fun _ => rfl, by simp [isVoidOutput, outputTypes, isVoidList]⟩
  | some q => exact voidFlag_of_standalone (standalone_of_result hp hresult)

end Place

/-- The records of functions and subscripts are those of declarations of the tree, but for their headers
(`Place.visited_eq_reachable`). -/
theorem exists_record {source : String} {tree : Tree} {o : Outline}
    (ho : (Place.root tree).collect.locate (some source) = o) :
    (∀ r ∈ o.functions, ∃ p : Place, tree.Contains p.tree ∧ r.isVoidReturn = p.functionRecord.isVoidReturn ∧
      r.returns = p.functionRecord.returns ∧ r.returnType = p.functionRecord.returnType) ∧
    ∀ r ∈ o.subscripts, ∃ p : Place, tree.Contains p.tree ∧ r.returns = p.subscriptRecord.returns ∧
      r.returnType = p.subscriptRecord.returnType := by
  subst ho
  rw [Outline.locate_some, Place.collect, Outline.ofDeclarations_flatMap, Place.visited_eq_reachable]
  simp only [Outline.mapHeaders, Outline.ofNodes, List.map_map, List.mem_map, List.mem_filter]
  constructor
  all_goals
    rintro r ⟨p, ⟨hp, -⟩, rfl⟩
    have hin := Place.contains_of_mem_nodesOfTree (List.mem_filter.mp hp).1
  · exact ⟨p, hin, rfl, rfl, rfl⟩
  · exact ⟨p, hin, rfl, rfl⟩

/-- **A flag that does not agree with its list.** The only result of this closure is void, and the
closure is not. -/
theorem void_output_spliced : ¬ ∀ text d fields inputs outputs traits,
    decomposeType text = .ok d → d.Holds (.closure fields inputs outputs traits) →
      traits.isVoidOutput = isVoidList outputs := by
  intro hall
  have hd : decomposeType "() -> (x: Void)" =
      .ok (.closure (.ofType "() -> (x: Void)") [] [.standard ((Fields.ofType "Void").withNames "x" "") []]
        { isVoidInput := true, inputType := "()", outputType := "(x: Void)"
          declarationText := "() -> (x: Void)" }) := eq_ok_of_toOption (by decide +kernel)
  exact absurd (hall _ _ _ _ _ _ hd (.self _)) (by decide)

/-- **The flags of all closures and functions.** Take any closure that occurs, at any depth, in the
descriptor of a type or of a declaration. Its input flag is as the list of its inputs says. Its output
flag is only set if there are no outputs, and is as the list of the outputs says, but for a return type
that lists results which say nothing. The same holds for the flag of every function. -/
theorem void_flags :
    (∀ (d : Descriptor) (fields : Fields) (inputs outputs : List Descriptor) (traits : ClosureTraits),
      ((∃ text, decomposeType text = .ok d) ∨ ∃ source o, outlineOf source = .ok o ∧ d ∈ o.descriptors) →
      d.Holds (.closure fields inputs outputs traits) →
        traits.isVoidInput = isVoidList inputs ∧
          VoidFlag traits.isVoidOutput outputs (some traits.outputType)) ∧
      ∀ (source : String) (o : Outline) (r : FunctionRecord), outlineOf source = .ok o → r ∈ o.functions →
        VoidFlag r.isVoidReturn r.returns r.returnType := by
  constructor
  · intro d fields inputs outputs traits hd hclosure
    obtain ⟨source, q, hq, heq⟩ := exists_place_of_closure hd hclosure
    exact Place.voidFlags_of_closure hq heq
  · intro source o r h hr
    obtain ⟨tree, hparse, rfl⟩ := parseSource_of_outlineOf h
    obtain ⟨p, hp, hflag, hresults, htype⟩ := (exists_record rfl).1 r hr
    rw [hflag, hresults, htype]
    exact Place.voidFlag_functionRecord ((isPart_of_parseSource hparse).contains hp)

/-- A closure without inputs, with a closure among its outputs: the return type of that one is a tuple
with one void element, so it is not void though its outputs are. The return type of the function is void
behind an attribute. -/
theorem void_flags_nested : ∃ d fields inputs outputs traits o r,
    decomposeType "(@A Void) -> (B, () -> (x: Void))" = .ok d ∧
      d.Holds (.closure fields inputs outputs traits) ∧
      outlineOf "func f() -> @A ( )" = .ok o ∧ r ∈ o.functions ∧
      traits.isVoidInput = isVoidList inputs ∧ VoidFlag traits.isVoidOutput outputs (some traits.outputType) ∧
      isResultList traits.outputType = true ∧ isVoidList outputs = true ∧ traits.isVoidOutput = false ∧
      VoidFlag r.isVoidReturn r.returns r.returnType ∧ r.isVoidReturn = true ∧ r.returns = [] := by
  have hd : decomposeType "(@A Void) -> (B, () -> (x: Void))" =
      .ok (.closure (.ofType "(@A Void) -> (B, () -> (x: Void))") []
        [.ofType "B", .closure (.ofType "() -> (x: Void)") []
          [.standard ((Fields.ofType "Void").withNames "x" "") []]
          { isVoidInput := true, inputType := "()", outputType := "(x: Void)"
            declarationText := "() -> (x: Void)" }]
        { isVoidInput := true, inputType := "(@A Void)", outputType := "(B, () -> (x: Void))"
          declarationText := "(@A Void) -> (B, () -> (x: Void))" }) := eq_ok_of_toOption (by decide +kernel)
  obtain ⟨o, ho, r, hr, hvoid, hnone⟩ := exists_ok_of_test (x := outlineOf "func f() -> @A ( )")
    (P := fun o => ∃ r ∈ o.functions, r.isVoidReturn = true ∧ r.returns = []) (by decide +kernel)
  have hinner := void_flags.1 _ _ _ _ _ (.inl ⟨_, hd⟩)
      (.part (List.mem_cons_of_mem _ (List.mem_singleton_self _)) (.self _))
  exact ⟨_, _, _, _, _, o, r, hd, .part (List.mem_cons_of_mem _ (List.mem_singleton_self _)) (.self _), ho,
    hr, hinner.1, hinner.2, by decide +kernel, by decide, rfl, void_flags.2 _ _ _ ho hr, hvoid, hnone⟩

end SwiftOutline
