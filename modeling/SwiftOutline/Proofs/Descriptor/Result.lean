import SwiftOutline.Proofs.Descriptor.Grouping
import SwiftOutline.Proofs.Descriptor.VoidFlags
import SwiftOutline.Proofs.Grammar.Embedded

/-!
# `Result` — what functions return, as closures

The return type of a declaration stands in a clause of its own, and that of a closure in the function
type itself. In both places the same rules say what is returned: a tuple stands for its elements, void
for nothing, and any other type for itself. So the return type of a declaration behind an empty list of
inputs is a closure with the same outputs.
-/

namespace SwiftOutline

open SwiftOutline.Tree Token

/-! ## Return types elsewhere -/

namespace Place

variable {g : Token → Token} {u : Tree}

/-- Below a node that neither carries labels nor passes an optional on, a type is as good as alone. -/
theorem alike_root {e : Tree} {k : NodeKind} (he : e.kind? = some k) (hstops : k.stopsSearch = true)
    (hcarrier : k.isCarrier = false) (above : List Tree) : Alike g (e :: above) (root u) := by
  have hoptional : k.isOptional = false := by
    rw [NodeKind.stopsSearch, Bool.not_eq_true', Bool.or_eq_false_iff, Bool.or_eq_false_iff] at hstops
    exact hstops.1.1
  constructor
  · exact hasOptionalAbove_of_stops he hstops
  · exact labels_child he hcarrier hoptional

/-- **What a return type stands for** does not depend on where it stands. -/
theorem outputs_moved {A : List Tree} (hg : Faithful g u.tokens) (halike : Alike g A (root u)) :
    (outputTypes (some ((root u).moved g A))).map decompose = (outputTypes (some (root u))).map decompose ∧
      isVoidOutput (some ((root u).moved g A)) = isVoidOutput (some (root u)) := by
  have hpart : ∀ r ∈ some (root u), Faithful g r.tree.tokens ∧ Alike g A r := by
    intro r hr
    cases hr
    exact ⟨hg, halike⟩
  constructor
  · have houtputs := outputTypes_moved A (legible_of_faithful fun r hr => (hpart r hr).1)
    rw [Option.map_some] at houtputs
    rw [houtputs]
    refine map_moved fun q hq => ?_
    obtain ⟨r, hr, hin⟩ := contains_of_outputTypes hq
    exact decompose_moved (faithful_part (hpart r hr).1 hin) (alike_of_outputTypes hpart hq)
  · exact isVoidSpelling_withoutAttributes_moved A (p := root u) hg.legible

end Place

/-! ## The closure that returns a type -/

/-- The function type without inputs that returns a type. -/
def thunkTree (opening closing arrow : Token) (result : Tree) : Tree :=
  .node .functionType
    [.token opening, .node .tupleTypeElementList [], .token closing, .token arrow, result]

theorem tokens_thunkTree (opening closing arrow : Token) (result : Tree) :
    (thunkTree opening closing arrow result).tokens = opening :: closing :: arrow :: result.tokens := by
  simp [thunkTree]

/-- The arrow behind an empty list of inputs at the start of a text. -/
def arrowToken : Token := ⟨.arrow, " ", "->", 3, false⟩

/-- **A type behind an empty list of inputs and an arrow** is read as the result of a function type. -/
theorem Rule.type_thunk {n : Nat} {ts : List Token} {u : Tree} (h : type n ts = .ok ([u], [])) :
    type (n + 1) (parenToken true 0 :: parenToken false 1 :: arrowToken :: ts) =
      .ok ([thunkTree (parenToken true 0) (parenToken false 1) arrowToken u], []) := by
  have hlist : elements (tupleElement (type n) .tupleTypeElement) (parenToken false 1 :: arrowToken :: ts) =
      .ok ([], parenToken false 1 :: arrowToken :: ts) := many_of_not rfl
  have hinputs : (bump ++ node .tupleTypeElementList (elements (tupleElement (type n) .tupleTypeElement)) ++
      bump : Rule)
      (parenToken true 0 :: parenToken false 1 :: arrowToken :: ts) = .ok (_, arrowToken :: ts) :=
    seq_ok (seq_ok (bump_cons (parenToken true 0) _) (node_ok hlist)) (bump_cons (parenToken false 1) _)
  have harrow : seesFunctionArrow (arrowToken :: ts) = true := by
    rw [OffEffect.seesFunctionArrow (show OffEffect (arrowToken :: ts) from rfl)]
    rfl
  have hresult : (optional seesEffect effectSpecifiers ++ bump ++ type n : Rule) (arrowToken :: ts) =
      .ok ([] ++ [.token arrowToken] ++ [u], []) :=
    seq_ok (seq_ok (optional_of_no rfl) (bump_cons arrowToken ts)) h
  have hopening : (parenToken true 0).Lexical := ⟨'(', [], show "(".toList = ['('] from rfl, rfl⟩
  refine typeBody_of_parenType hopening rfl ?_
  rw [parenType, closing_ok hinputs (by rw [if_pos harrow]; exact hresult), if_pos harrow]
  rfl

namespace SoleType

open Place

variable {levels : Nat} {text : String} {u : Tree}

/-- **A text that is one type, behind an empty list of inputs and an arrow**, is a function type. -/
theorem thunk (h : SoleType levels text u) : ∃ g, Faithful g u.tokens ∧
    SoleType (levels + 1) ("() -> " ++ text)
      (thunkTree (parenToken true 0) (parenToken false 1) arrowToken (u.relabel g)) := by
  obtain ⟨g, hg, hresult⟩ := h.typeAt_space 5
  refine ⟨g, hg, ?_, ?_⟩
  · have harrow := tokensFrom_fixed 2 [' '] '-' ['>'] rfl rfl hresult.tokens
    have htext : ("() -> " ++ text).toList = '(' :: ')' :: ' ' :: '-' :: '>' :: ' ' :: text.toList := by
      rw [String.toList_append]
      rfl
    rw [tokenize, htext, tokens_thunkTree]
    exact tokensFrom_paren true (tokensFrom_paren false harrow)
  · rw [tokens_thunkTree]
    exact Rule.type_thunk hresult.read

/-- **The closure that returns a type** has the outputs that the type stands for. -/
theorem decomposeType_thunk (h : SoleType levels text u) (hu : u.isType = true)
    (hlevels : levels < nestingLimit) : ∃ fields traits, SwiftOutline.decomposeType ("() -> " ++ text) =
        .ok (.closure fields [] ((outputTypes (some (root u))).map decompose) traits) ∧
      traits.isVoidOutput = isVoidOutput (some (root u)) := by
  obtain ⟨g, hg, hthunk⟩ := h.thunk
  rw [hthunk.decomposeType rfl hlevels]
  generalize hp : sole (thunkTree (parenToken true 0) (parenToken false 1) arrowToken (u.relabel g)) = p
  have hkind : p.kind? = some .functionType := by
    rw [← hp]
    rfl
  have hvoid : p.isVoidCore = false := by
    refine not_isVoidCore_of_arrow hkind ?_
    rw [← hp, Place.text, Tree.text, tokens_thunkTree, toList_joined, layout_cons, layout_cons]
    simp [arrowToken]
  have hresult : p.childType? = some ((root u).moved g (p.tree :: p.above)) := by
    rw [← hp]
    show Option.map _ ([u.relabel g].find? Tree.isType) = _
    rw [List.find?_cons, isType_relabel, hu]
    rfl
  have hinputs : p.inputTypes = [] := by
    rw [← hp]
    rfl
  have halike : Alike g (p.tree :: p.above) (root u) := alike_root hkind rfl rfl p.above
  have houtputs := outputs_moved hg halike
  rw [decompose_functionType hkind hvoid, hinputs, hresult, houtputs.1]
  exact ⟨_, _, rfl, (congrArg isVoidOutput hresult).trans houtputs.2⟩

end SoleType

/-! ## Return types of declarations -/

/-- The text of a type that was read from a source, with a given number of levels, is that type. -/
theorem soleType_of_readWithin {source : String} {levels : Nat} {u : Tree} (hu : u.IsPart source)
    (hread : u.ReadWithin levels) :
    ∃ g, Faithful g u.tokens ∧ SoleType levels u.text (u.relabel g) := by
  obtain ⟨n, hn, us, rest, hlex, hok⟩ := hread
  have hagain := Rule.type_alone hlex hn hok
  rw [forestTokens_singleton] at hagain
  obtain ⟨t, ts, htokens⟩ := List.exists_cons_of_ne_nil (Rule.ne_nil_of_type hagain)
  obtain ⟨tokens, htokenize, hin⟩ := hu.tokens
  rw [htokens] at hin hagain
  have hfirst := not_mem_of_isInfix htokenize hin
  -- first the gap in front is left out, and then the places are changed
  have hregap := regap_changes hfirst
  have hplaces := (Rule.lawful_type levels).natural (unseen_rebase t.start) (regap t t :: ts)
  rw [Rule.headBlind_type levels hregap hagain, Rule.relabelOutcome_ok, relabelForest_relabel,
    regap_self] at hplaces
  have hmap : (u.relabel (excerpt t)).tokens = (t.leading :: ts).map (rebase t.start) := by
    rw [tokens_relabel, htokens, ← regap_self, ← hregap.map_cons, List.map_map]
    rfl
  refine ⟨excerpt t, htokens ▸ faithful_excerpt hfirst, ?_, ?_⟩
  · rw [hmap, Tree.text, htokens, tokenize_excerpt htokenize hin]
  · rw [hmap, hplaces]
    rfl

namespace Place

/-- The return type of a declaration was read with a level to spare. -/
theorem readWithin_of_returnType? {tree : Tree} {levels : Nat} {p q : Place}
    (htree : tree.Every (HoldsWithin levels)) (hp : tree.Contains p.tree) (hq : p.returnType? = some q) :
    q.isType = true ∧ q.tree.ReadWithin levels ∧
      ∃ clause above, q.above = clause :: above ∧ clause.kind? = some .returnClause := by
  obtain ⟨clause, hclause, hq⟩ := Option.bind_eq_some_iff.mp hq
  obtain ⟨signature, hsignature, hclause⟩ := Option.bind_eq_some_iff.mp hclause
  have hin := (hp.trans (contains_of_child? hsignature)).trans (contains_of_child? hclause)
  have hkind := kind?_of_child? hclause
  obtain ⟨cs, k, ds, hcs, rfl, hmem, hk⟩ := exists_node_of_childType? hkind hq
  have hhere := htree.contains hin
  rw [hcs] at hhere
  exact ⟨hk, hhere.here rfl hmem hk, clause.tree, clause.above, rfl, hkind⟩

/-- **What a declaration returns** is what the closure with its return type returns. -/
theorem exists_closure_of_returnType? {source : String} {tree : Tree} {p q : Place}
    (hparse : parseSource source = .ok tree) (hp : tree.Contains p.tree) (hq : p.returnType? = some q) :
    ∃ fields traits,
      decomposeType ("() -> " ++ q.text) = .ok (.closure fields [] p.returns traits) ∧
        traits.isVoidOutput = isVoidOutput (some q) := by
  obtain ⟨hisType, hread, clause, above, habove, hclause⟩ :=
    readWithin_of_returnType? (holdsWithin_of_parseSource hparse) hp hq
  have hpart := (isPart_of_parseSource hparse).contains (hp.trans (contains_of_returnType? hq))
  obtain ⟨u, A⟩ := q
  cases habove
  obtain ⟨g, hg, hsole⟩ := soleType_of_readWithin hpart hread
  obtain ⟨fields, traits, hclosure, hvoid⟩ :=
    hsole.decomposeType_thunk ((isType_relabel g u).trans hisType) (by decide)
  -- the type says the same in its clause and alone
  have hhere := outputs_moved (faithful_id u.tokens) (alike_root hclause rfl rfl above)
  rw [moved_id_root] at hhere
  have halone : root (u.relabel g) = (root u).moved g [] := rfl
  have hthere := outputs_moved hg (A := []) ⟨rfl, rfl⟩
  rw [← halone] at hthere
  refine ⟨fields, traits, ?_, ?_⟩
  · rw [returns, hq, hhere.1, ← hthere.1]
    exact hclosure
  · rw [hvoid, hhere.2, hthere.2]

theorem returns_of_none {p : Place} (h : p.returnType? = none) : p.returns = [] := by
  rw [returns, h]
  rfl

end Place

/-- What functions and subscripts return is what closures with their return types return. Of a function
the closure also says whether that is nothing. Without a return type nothing is returned. -/
structure Outline.ReturnsLikeClosures (outline : Outline) : Prop where
  functions : ∀ r ∈ outline.functions, (r.returnType = none → r.returns = []) ∧
    ∀ text, r.returnType = some text → ∃ fields traits,
      decomposeType ("() -> " ++ text) = .ok (.closure fields [] r.returns traits) ∧
        traits.isVoidOutput = r.isVoidReturn
  subscripts : ∀ r ∈ outline.subscripts, (r.returnType = none → r.returns = []) ∧
    ∀ text, r.returnType = some text → ∃ fields traits,
      decomposeType ("() -> " ++ text) = .ok (.closure fields [] r.returns traits)

/-- **Functions and subscripts return what closures do**, in every source file. -/
theorem results_like_closures {source : String} {outline : Outline} (h : outlineOf source = .ok outline) :
    outline.ReturnsLikeClosures := by
  obtain ⟨tree, hparse, rfl⟩ := parseSource_of_outlineOf h
  constructor
  · intro r hr
    obtain ⟨p, hp, hvoid, hreturns, htype⟩ := (exists_record rfl).1 r hr
    rw [hvoid, hreturns, htype]
    refine ⟨fun hnone => Place.returns_of_none (Option.map_eq_none_iff.mp hnone), fun text hsome => ?_⟩
    obtain ⟨q, hq, rfl⟩ := Option.map_eq_some_iff.mp hsome
    obtain ⟨fields, traits, hclosure, hflag⟩ := Place.exists_closure_of_returnType? hparse hp hq
    refine ⟨fields, traits, hclosure, ?_⟩
    rw [hflag, Place.functionRecord, hq]
  · intro r hr
    obtain ⟨p, hp, hreturns, htype⟩ := (exists_record rfl).2 r hr
    rw [hreturns, htype]
    refine ⟨fun hnone => Place.returns_of_none (Option.map_eq_none_iff.mp hnone), fun text hsome => ?_⟩
    obtain ⟨q, hq, rfl⟩ := Option.map_eq_some_iff.mp hsome
    obtain ⟨fields, traits, hclosure, -⟩ := Place.exists_closure_of_returnType? hparse hp hq
    exact ⟨fields, traits, hclosure⟩

/-- A method that returns a tuple with a closure in it, and a subscript whose return type has a comment
inside. -/
theorem results_like_closures_members : ∃ source o,
    source = "struct S \x7b\n func f() throws -> (a: Int?, @B () -> Void) \x7b\x7d\n" ++
      " subscript(i: Int) -> C /* d */ ? \x7b get \x7d\n\x7d" ∧
    outlineOf source = .ok o ∧ o.ReturnsLikeClosures ∧
    o.functions.map (fun r => (r.returnType, r.returns.length)) = [(some "(a: Int?, @B () -> Void)", 2)] ∧
    o.subscripts.map (·.returnType) = [some "C /* d */ ?"] :=
  (exists_ok_of_test (by decide +kernel)).elim fun o h => ⟨_, o, rfl, h.1, results_like_closures h.1, h.2⟩

end SwiftOutline
