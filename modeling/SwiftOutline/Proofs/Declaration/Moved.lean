import SwiftOutline.Proofs.Declaration.Records
import SwiftOutline.Proofs.Descriptor.Moved
import SwiftOutline.Declaration.Collect

/-!
# `Declaration.Moved` — the records of a declaration that is read elsewhere

A record shows of what stands around its declaration only the owner, and of where it stands only the span. All
else in it is read off the declaration's own tree, and stays the same wherever the declaration is read.
-/

namespace SwiftOutline

open SwiftOutline.Tree List

namespace Tree

/-! ## Parts of declarations -/

variable {g : Token → Token}

/-- What is picked among the child nodes stays (`map_childNodes_relabel`). -/
theorem filterMap_childNodes_relabel {α : Type} {t : Tree} {F : Tree → Option α}
    (hF : ∀ c ∈ t.children, F (c.relabel g) = F c) :
    (t.relabel g).childNodes.filterMap F = t.childNodes.filterMap F := by
  have hmap (cs : List Tree) : cs.filterMap F = (cs.map F).filterMap id := by
    rw [filterMap_map]
    rfl
  rw [hmap, map_childNodes_relabel hF, ← hmap]

section

variable {g : Token → Token} {t : Tree} (hg : Token.Faithful g t.tokens)
include hg

theorem keyword_relabel : (t.relabel g).keyword = t.keyword := by
  rw [keyword, childTokens_relabel, ← List.head?_map, map_text_childTokens hg.text, List.head?_map, keyword]

/-- A modifier is told by the texts of its tokens. -/
theorem toModifier?_relabel : (t.relabel g).toModifier? = t.toModifier? := by
  have htext : ∀ u ∈ t.childTokens, (g u).text = u.text :=
    fun u hu => hg.text u (mem_tokens_of_childTokens hu)
  rw [toModifier?, toModifier?, childTokens_relabel]
  generalize t.childTokens = us at htext
  match us with
  | [] => rfl
  | [a] => simp only [List.map_cons, map_nil, htext a (by simp)]
  | [a, _] => simp only [List.map_cons, map_nil, htext a (by simp)]
  | [a, _, _] => simp only [List.map_cons, map_nil, htext a (by simp)]
  | [a, b, c, _] =>
    simp only [List.map_cons, map_nil, htext a (by simp), htext b (by simp), htext c (by simp)]
  | a :: _ :: _ :: _ :: _ :: _ => simp only [List.map_cons, htext a (by simp)]

theorem modifiers_relabel : (t.relabel g).modifiers = t.modifiers := by
  rw [modifiers, modifiers, map_child?_relabel]
  intro list hlist
  refine filterMap_childNodes_relabel ?_
  intro c hc
  exact toModifier?_relabel (faithful_child (faithful_child hg hlist) hc)

theorem text_children : ∀ c ∈ t.children, (c.relabel g).text = c.text :=
  fun _ hc => text_relabel (faithful_child hg hc)

/-- The name is that of a name node, or in an extension the text of its type. -/
theorem declaredName_relabel : (t.relabel g).declaredName = t.declaredName := by
  have hname := map_child?_relabel (text_children hg) .name
  unfold declaredName
  rw [isKind_relabel, map_childType?_relabel (text_children hg)]
  cases h : t.child? .name with
  | none => rw [child?_relabel, h]; rfl
  | some n =>
    rw [child?_relabel, h] at hname ⊢
    exact Option.some.inj hname

/-- Words stay words (`Faithful.isWord`). -/
theorem words_relabel : (t.relabel g).childTokens.filter Token.isWord =
    (t.childTokens.filter Token.isWord).map g := by
  rw [childTokens_relabel, filter_map]
  congr 1
  refine filter_congr ?_
  intro u hu
  exact hg.isWord (mem_tokens_of_childTokens hu)

theorem text_word {w : Token} (hw : w ∈ t.childTokens.filter Token.isWord) : (g w).text = w.text :=
  hg.text w (mem_tokens_of_childTokens (mem_filter.mp hw).1)

theorem toGenericParameter?_relabel : (t.relabel g).toGenericParameter? = t.toGenericParameter? := by
  rw [toGenericParameter?, toGenericParameter?, words_relabel hg, List.getLast?_map,
    map_childType?_relabel (text_children hg), Option.map_map]
  refine Option.map_congr ?_
  intro w hw
  show GenericParameter.mk (g w).text _ = GenericParameter.mk w.text _
  rw [text_word hg (mem_of_getLast? hw)]

theorem firstWord_relabel : ((t.relabel g).childTokens.find? Token.isWord).map Token.text =
    (t.childTokens.find? Token.isWord).map Token.text := by
  rw [← List.head?_filter, words_relabel hg, List.head?_map, Option.map_map, ← List.head?_filter]
  refine Option.map_congr ?_
  intro w hw
  exact text_word hg (mem_of_head? hw)

theorem genericParameters_relabel : (t.relabel g).genericParameters = t.genericParameters := by
  rw [genericParameters, genericParameters, map_child?_relabel]
  intro clause hclause
  rw [filterMap_filter, filterMap_filter]
  refine filterMap_childNodes_relabel ?_
  intro c hc
  rw [isKind_relabel, toGenericParameter?_relabel (faithful_child (faithful_child hg hclause) hc)]

theorem inheritedTypes_relabel : (t.relabel g).inheritedTypes = t.inheritedTypes := by
  rw [inheritedTypes, inheritedTypes, map_child?_relabel]
  intro clause hclause
  rw [map_filterMap, map_filterMap]
  refine filterMap_childNodes_relabel ?_
  intro c hc
  exact map_childType?_relabel (text_children (faithful_child (faithful_child hg hclause) hc))

/-- Requirements are the text behind `where` (`Faithful.joined_map`). -/
theorem whereText_relabel : (t.relabel g).whereText = t.whereText := by
  rw [whereText, whereText, child?_relabel]
  cases h : t.child? .genericWhereClause with
  | none => rfl
  | some clause =>
    have hclause := faithful_child hg (mem_children_of_child? h)
    simp only [Option.map_some, Option.bind_some, tokens_relabel]
    cases htokens : clause.tokens with
    | nil => rfl
    | cons first ts =>
      cases ts with
      | nil => rfl
      | cons u us =>
        have hin : u :: us <:+: clause.tokens := by
          rw [htokens]
          exact (suffix_cons _ _).isInfix
        exact congrArg some (hclause.of_isInfix hin).joined_map

end

/-! ## Accessors -/

/-- Inside the block every token keeps all that accessors are told by. -/
theorem accessorsFrom_map {ts : List Token} (htext : ∀ u ∈ ts, (g u).text = u.text)
    (hnewline : ∀ u ∈ ts, (g u).newlineBefore = u.newlineBefore) (last : String) (depth : Nat) :
    accessorsFrom last depth (ts.map g) = accessorsFrom last depth ts := by
  induction ts generalizing last depth with
  | nil => rfl
  | cons t ts ih =>
    have ih' := ih (fun u hu => htext u (mem_cons_of_mem _ hu))
      (fun u hu => hnewline u (mem_cons_of_mem _ hu))
    have hnext : ((ts.map g).head?.map Token.text).getD "" = (ts.head?.map Token.text).getD "" := by
      cases ts with
      | nil => rfl
      | cons u us => exact htext u (mem_cons_of_mem _ mem_cons_self)
    rw [List.map_cons, accessorsFrom, accessorsFrom]
    simp only [htext t mem_cons_self, hnewline t mem_cons_self, hnext, ih']

/-- The first token of a block is its brace, which stands outside it and is no accessor. -/
theorem accessors_relabel {t : Tree} (hg : Token.Faithful g t.tokens) :
    (t.relabel g).accessors = t.accessors := by
  rw [accessors, accessors, tokens_relabel]
  generalize t.tokens = ts at hg
  cases ts with
  | nil => rfl
  | cons u us =>
    have hrest := accessorsFrom_map (fun v hv => hg.text v (mem_cons_of_mem _ hv)) hg.newlineBefore
    have hzero : (0 == 1) = false := rfl
    rw [List.map_cons, accessorsFrom, accessorsFrom]
    simp only [hg.text u mem_cons_self, hrest, hzero, Bool.false_and, Bool.false_eq_true, if_false]

end Tree

/-! ## Signatures -/

namespace Place

section

variable (g : Token → Token) (A : List Tree) (p : Place)

/-- Two look-ups in a row lead to the moved place. -/
theorem bind_child?_moved (j k : NodeKind) : ((p.moved g A).child? j).bind (child? k) =
    ((p.child? j).bind (child? k)).map (moved g A) := by
  rw [child?_moved]
  cases p.child? j with
  | none => rfl
  | some q => exact child?_moved g A q k

theorem bind_childType?_moved (k : NodeKind) : ((p.moved g A).child? k).bind childType? =
    ((p.child? k).bind childType?).map (moved g A) := by
  rw [child?_moved]
  cases p.child? k with
  | none => rfl
  | some q => exact childType?_moved g A q

theorem returnType?_moved : (p.moved g A).returnType? = p.returnType?.map (moved g A) := by
  rw [returnType?, bind_child?_moved, returnType?]
  cases (p.child? .functionSignature).bind (child? .returnClause) with
  | none => rfl
  | some q => exact childType?_moved g A q

theorem effects?_moved : (p.moved g A).effects? = p.effects?.map (moved g A) :=
  bind_child?_moved g A p .functionSignature .effectSpecifiers

theorem hasBody_moved : (p.moved g A).hasBody = p.hasBody := by
  rw [hasBody, child?_moved, Option.isSome_map, hasBody]

theorem filter_childNodes_moved (k : NodeKind) : (p.moved g A).childNodes.filter (isKind k) =
    (p.childNodes.filter (isKind k)).map (moved g A) := by
  rw [childNodes_moved, filter_map]
  congr 2
  funext q
  exact isKind_moved g A q k

end

variable {g : Token → Token} {A : List Tree} {p q : Place} (hg : Token.Faithful g p.tree.tokens)

variable {k : NodeKind}

/-- What two look-ups find is part of the tree. -/
theorem contains_of_bind_child? {j : NodeKind} (h : (p.child? j).bind (child? k) = some q) :
    p.tree.Contains q.tree := by
  obtain ⟨r, hr, hq⟩ := Option.bind_eq_some_iff.mp h
  exact (contains_of_child? hr).trans (contains_of_child? hq)

theorem contains_of_bind_childType? (h : (p.child? k).bind childType? = some q) : p.tree.Contains q.tree := by
  obtain ⟨r, hr, hq⟩ := Option.bind_eq_some_iff.mp h
  exact (contains_of_child? hr).trans (contains_of_childType? hq)

theorem contains_of_returnType? (h : p.returnType? = some q) : p.tree.Contains q.tree := by
  obtain ⟨r, hr, hq⟩ := Option.bind_eq_some_iff.mp h
  exact (contains_of_bind_child? hr).trans (contains_of_childType? hq)

theorem kind?_of_child? (h : p.child? k = some q) : q.kind? = some k := by
  obtain ⟨c, hc, rfl⟩ := Option.map_eq_some_iff.mp h
  exact kind?_of_child? hc

theorem kind?_of_isKind (h : p.isKind k = true) : p.kind? = some k :=
  eq_of_beq h

theorem above_of_child? (h : p.child? k = some q) : q.above = p.tree :: p.above := by
  obtain ⟨c, hc, rfl⟩ := Option.map_eq_some_iff.mp h
  rfl

section

include hg

/-- The types in the entries of a list of parameters keep their descriptors. -/
theorem decompose_entries_moved {list : Place} {j k : NodeKind} (hp : p.kind? = some j)
    (hj : (j == .tupleType) = false) (hlist : p.child? k = some list) (hstops : k.stopsSearch = true)
    (hcarrier : k.isCarrier = false) :
    ((list.moved g A).childNodes.filterMap childType?).map decompose =
      (list.childNodes.filterMap childType?).map decompose := by
  have hin := contains_of_child? hlist
  have hnotTuple : p.tree.isKind .tupleType = true → SameOptional g A ⟨p.tree, p.above⟩ := by
    intro htuple
    rw [Tree.isKind, show p.tree.kind? = some j from hp] at htuple
    exact absurd (htuple.symm.trans hj) (by decide)
  rw [entries_moved]
  refine map_moved fun q hq => ?_
  refine decompose_moved (faithful_part hg (hin.trans (holdsBelow_of_entries hq).contains)) ?_
  exact alike_of_entries hg (kind?_of_child? hlist) hstops hcarrier (above_of_child? hlist) hin hnotTuple hq

/-- Parameters keep their descriptors (`decompose_entries_moved`). -/
theorem parameters_moved : (p.moved g A).parameters = p.parameters := by
  unfold parameters
  rw [bind_child?_moved]
  cases hsignature : p.child? .functionSignature with
  | none => rfl
  | some signature =>
    have hg' := faithful_part hg (contains_of_child? hsignature)
    simp only [Option.bind_some]
    cases hclause : signature.child? .parameterClause with
    | none => rfl
    | some clause => exact decompose_entries_moved hg' (kind?_of_child? hsignature) rfl hclause rfl rfl

/-- A type that stands below a clause keeps its descriptor. -/
theorem decompose_bind_childType?_moved {k : NodeKind} (hstops : k.stopsSearch = true)
    (hcarrier : k.isCarrier = false) :
    (((p.moved g A).child? k).bind childType?).map decompose =
      ((p.child? k).bind childType?).map decompose := by
  rw [bind_childType?_moved, Option.map_map]
  refine Option.map_congr ?_
  intro q hq
  have hin := contains_of_bind_childType? hq
  obtain ⟨clause, hclause, htype⟩ := Option.bind_eq_some_iff.mp hq
  exact decompose_moved (faithful_part hg hin)
    (alike_of_childType? (kind?_of_child? hclause) hstops hcarrier htype)

theorem faithful_returnType? : ∀ q ∈ p.returnType?, Token.Faithful g q.tree.tokens :=
  fun _ hq => faithful_part hg (contains_of_returnType? hq)

/-- Results keep theirs (`alike_of_outputTypes`). -/
theorem returns_moved : (p.moved g A).returns = p.returns := by
  have hreturn := faithful_returnType? hg
  have halike : ∀ r ∈ p.returnType?, Token.Faithful g r.tree.tokens ∧ Alike g A r := by
    intro r hr
    refine ⟨hreturn r hr, ?_⟩
    obtain ⟨clause, hclause, htype⟩ := Option.bind_eq_some_iff.mp hr
    obtain ⟨signature, -, hclause⟩ := Option.bind_eq_some_iff.mp hclause
    exact alike_of_childType? (kind?_of_child? hclause) rfl rfl htype
  rw [returns, returnType?_moved, outputTypes_moved A (legible_of_faithful hreturn), returns]
  refine map_moved fun q hq => ?_
  obtain ⟨r, hr, hin⟩ := contains_of_outputTypes hq
  exact decompose_moved (faithful_part (hreturn r hr) hin) (alike_of_outputTypes halike hq)

theorem faithful_effects? : ∀ q ∈ p.effects?, Token.Faithful g q.tree.tokens :=
  fun _ hq => faithful_part hg (contains_of_bind_child? hq)

/-- A block keeps its accessors (`accessors_relabel`). -/
theorem accessors_moved : (p.moved g A).accessors = p.accessors := by
  rw [accessors, child?_moved, Option.map_map, accessors]
  congr 1
  refine Option.map_congr ?_
  intro q hq
  exact accessors_relabel (faithful_part hg (contains_of_child? hq))

theorem text_child?_moved (k : NodeKind) : ((p.moved g A).child? k).map text = (p.child? k).map text := by
  rw [child?_moved]
  exact map_text_moved A fun q hq => faithful_part hg (contains_of_child? hq)

end

end Place

/-! ## Records -/

namespace Place

/-- The record with the owner and the span of a place. -/
abbrev placedAt (p : Place) (d : Declaration) : Declaration := d.mapHeader (Header.placed p.owner? p.span)

variable {g : Token → Token} {A : List Tree} {p : Place} (hg : Token.Faithful g p.tree.tokens)
include hg

/-- A header has owner and span of the new place, and all else of the old. -/
theorem header_moved (name : String) : (p.moved g A).header name =
    (p.header name).placed (p.moved g A).owner? (p.moved g A).span := by
  rw [header, tree_moved, attributes_relabel hg, modifiers_relabel hg, keyword_relabel hg]
  rfl

/-- A record is made of its header and of parts that stay. -/
theorem containerRecord_moved :
    .container (p.moved g A).containerRecord = placedAt (p.moved g A) (.container p.containerRecord) := by
  rw [containerRecord, header_moved hg, tree_moved, declaredName_relabel hg,
    genericParameters_relabel hg, inheritedTypes_relabel hg, whereText_relabel hg]
  rfl

/-- The flags of a function are read off its effects and its return type (`isVoidOutput_moved`). -/
theorem functionRecord_moved :
    .function (p.moved g A).functionRecord = placedAt (p.moved g A) (.function p.functionRecord) := by
  rw [functionRecord, header_moved hg, parameters_moved hg, returns_moved hg,
    returnType?_moved, effects?_moved, map_text_moved A (faithful_returnType? hg),
    isVoidOutput_moved A (legible_of_faithful (faithful_returnType? hg)),
    isAsync_moved A (legible_of_faithful (faithful_effects? hg)),
    isThrowing_moved A (legible_of_faithful (faithful_effects? hg)), hasBody_moved, tree_moved,
      declaredName_relabel hg, genericParameters_relabel hg, whereText_relabel hg]
  rfl

theorem initializerRecord_moved :
    .initializer (p.moved g A).initializerRecord = placedAt (p.moved g A)
      (.initializer p.initializerRecord) := by
  rw [initializerRecord, header_moved hg, parameters_moved hg, effects?_moved,
    isAsync_moved A (legible_of_faithful (faithful_effects? hg)),
    isThrowing_moved A (legible_of_faithful (faithful_effects? hg)), hasBody_moved, tree_moved,
    keyword_relabel hg, hasToken_relabel hg.text, hasToken_relabel hg.text,
    genericParameters_relabel hg, whereText_relabel hg]
  rfl

theorem deinitializerRecord_moved :
    .deinitializer (p.moved g A).deinitializerRecord = placedAt (p.moved g A)
      (.deinitializer p.deinitializerRecord) := by
  rw [deinitializerRecord, header_moved hg, hasBody_moved, tree_moved, keyword_relabel hg]
  rfl

theorem subscriptRecord_moved :
    .subscript (p.moved g A).subscriptRecord = placedAt (p.moved g A) (.subscript p.subscriptRecord) := by
  rw [subscriptRecord, header_moved hg, parameters_moved hg, returns_moved hg, returnType?_moved,
    map_text_moved A (faithful_returnType? hg), accessors_moved hg, tree_moved, keyword_relabel hg,
    genericParameters_relabel hg]
  rfl

/-- Every binding of a variable makes a record. -/
theorem variableRecord_moved {b : Place} (hb : b ∈ p.childNodes) :
    .binding ((p.moved g A).variableRecord (b.moved g A)) =
      placedAt (p.moved g A) (.binding (p.variableRecord b)) := by
  have hg' := faithful_part hg (contains_of_childNodes hb)
  rw [variableRecord, header_moved hg, text_child?_moved hg', decompose_bind_childType?_moved hg' rfl rfl,
    accessors_moved hg', child?_moved, Option.isSome_map, tree_moved, initializer?_relabel hg']
  rfl

theorem typealiasRecord_moved :
    .typealias (p.moved g A).typealiasRecord = placedAt (p.moved g A) (.typealias p.typealiasRecord) := by
  rw [typealiasRecord, header_moved hg, decompose_bind_childType?_moved hg rfl rfl, tree_moved,
    declaredName_relabel hg, genericParameters_relabel hg]
  rfl

theorem associatedTypeRecord_moved :
    .associatedType (p.moved g A).associatedTypeRecord =
      placedAt (p.moved g A) (.associatedType p.associatedTypeRecord) := by
  have hdefault : ∀ q ∈ (p.child? .typeInitializer).bind childType?, Token.Faithful g q.tree.tokens :=
    fun q hq => faithful_part hg (contains_of_bind_childType? hq)
  rw [associatedTypeRecord, header_moved hg, bind_childType?_moved, map_text_moved A hdefault, tree_moved,
    declaredName_relabel hg, inheritedTypes_relabel hg]
  rfl

/-- Every element of a case makes one, with its values (`decompose_entries_moved`). -/
theorem enumCaseRecord_moved {e : Place} (he : e ∈ p.childNodes) (hkind : e.kind? = some .enumCaseElement) :
    .enumCase ((p.moved g A).enumCaseRecord (e.moved g A)) =
      placedAt (p.moved g A) (.enumCase (p.enumCaseRecord e)) := by
  have hg' := faithful_part hg (contains_of_childNodes he)
  unfold enumCaseRecord
  rw [header_moved hg, child?_moved, tree_moved, declaredName_relabel hg', initializer?_relabel hg']
  cases hclause : e.child? .enumCaseParameterClause with
  | none => rfl
  | some clause =>
    simp only [Option.map_some, decompose_entries_moved hg' hkind rfl hclause rfl rfl]
    rfl

theorem importRecord_moved :
    .importing (p.moved g A).importRecord = placedAt (p.moved g A) (.importing p.importRecord) := by
  have hkind : (p.moved g A).tree.childTokens[1]?.map Token.text = p.tree.childTokens[1]?.map Token.text := by
    rw [← List.getElem?_map, ← List.getElem?_map, tree_moved, childTokens_relabel,
      map_text_childTokens hg.text]
  simp only [importRecord, header_moved hg, text_child?_moved hg, hkind]
  rfl

/-- The precedence of an operator is the first word behind its colon (`firstWord_relabel`). -/
theorem operatorRecord_moved :
    .operator (p.moved g A).operatorRecord = placedAt (p.moved g A) (.operator p.operatorRecord) := by
  unfold operatorRecord
  rw [header_moved hg, child?_moved, tree_moved, declaredName_relabel hg, modifiers_relabel hg]
  cases hprecedence : p.child? .operatorPrecedence with
  | none => rfl
  | some q =>
    have hg' := faithful_part hg (contains_of_child? hprecedence)
    simp only [Option.map_some, Option.bind_some, tree_moved, firstWord_relabel hg']
    rfl

theorem precedenceGroupRecord_moved :
    .precedenceGroup (p.moved g A).precedenceGroupRecord =
      placedAt (p.moved g A) (.precedenceGroup p.precedenceGroupRecord) := by
  rw [precedenceGroupRecord, header_moved hg, text_child?_moved hg, tree_moved, declaredName_relabel hg]
  rfl

theorem clauseText_moved : (p.moved g A).clauseText = p.clauseText := by
  rw [clauseText, condition?, text_child?_moved hg, tree_moved, keyword_relabel hg]
  rfl

/-- A block is named by its first condition and lists its clauses (`clauseText_moved`). -/
theorem conditionalRecord_moved :
    .conditional (p.moved g A).conditionalRecord = placedAt (p.moved g A)
      (.conditional p.conditionalRecord) := by
  have hname : ((p.moved g A).child? .ifConfigClause).bind condition? =
      (p.child? .ifConfigClause).bind condition? := by
    rw [child?_moved]
    cases hclause : p.child? .ifConfigClause with
    | none => rfl
    | some clause => exact text_child?_moved (faithful_part hg (contains_of_child? hclause)) _
  have hclauses : ((p.moved g A).childNodes.filter (isKind .ifConfigClause)).map clauseText =
      (p.childNodes.filter (isKind .ifConfigClause)).map clauseText := by
    rw [filter_childNodes_moved]
    refine map_moved fun q hq => ?_
    exact clauseText_moved (faithful_part hg (contains_of_childNodes (mem_filter.mp hq).1))
  rw [conditionalRecord, hname, hclauses, header_moved hg]
  rfl

/-- **The records of a declaration that is read elsewhere** differ in owner and span only. -/
theorem declarations_moved : (p.moved g A).declarations =
    p.declarations.map (Declaration.mapHeader (Header.placed (p.moved g A).owner? (p.moved g A).span)) := by
  unfold declarations
  rw [kind?_moved]
  split
  iterate 6 exact congrArg (fun d => [d]) (containerRecord_moved hg)
  · exact congrArg (fun d => [d]) (functionRecord_moved hg)
  · exact congrArg (fun d => [d]) (initializerRecord_moved hg)
  · exact congrArg (fun d => [d]) (deinitializerRecord_moved hg)
  · exact congrArg (fun d => [d]) (subscriptRecord_moved hg)
  · rw [filter_childNodes_moved, map_map, map_map]
    refine map_congr_left fun b hb => ?_
    exact variableRecord_moved hg (mem_filter.mp hb).1
  · exact congrArg (fun d => [d]) (typealiasRecord_moved hg)
  · exact congrArg (fun d => [d]) (associatedTypeRecord_moved hg)
  · rw [filter_childNodes_moved, map_map, map_map]
    refine map_congr_left fun e he => ?_
    obtain ⟨he, hkind⟩ := mem_filter.mp he
    exact enumCaseRecord_moved hg he (kind?_of_isKind hkind)
  · exact congrArg (fun d => [d]) (importRecord_moved hg)
  · exact congrArg (fun d => [d]) (operatorRecord_moved hg)
  · exact congrArg (fun d => [d]) (precedenceGroupRecord_moved hg)
  · exact congrArg (fun d => [d]) (conditionalRecord_moved hg)
  · rfl

/-! ## The walk -/

omit hg

/-- No walk for declarations is ended early. -/
theorem collectPolicy_ne_halt (p : Place) : collectPolicy p ≠ .halt := by
  unfold collectPolicy
  split
  all_goals try split
  all_goals nofun

/-- The walk goes by kinds alone. -/
theorem collectPolicy_moved (g : Token → Token) (A : List Tree) (p : Place) :
    collectPolicy (p.moved g A) = collectPolicy p := by
  rw [collectPolicy, kind?_moved, collectPolicy]

end Place

end SwiftOutline
