import SwiftOutline.Proofs.Declaration.Ownership
import SwiftOutline.Proofs.Grammar.SchemaCounts
import SwiftOutline.Proofs.Grammar.Stored

/-!
# `Complete` — records of accepted trees are complete

Those who read a tree look for its parts and go on with a default where there is none. In an accepted
tree there is always one: a declaration has its keyword and its name, an alias its type, a function type
its closing parenthesis, and every parameter, element and associated value carries a type, so that none
of them is lost on the way to the record.
-/

namespace SwiftOutline

open Place List

/-- The kinds of node that have a name. -/
def NodeKind.isNamed : NodeKind → Bool
  | .classDecl | .structDecl | .enumDecl | .actorDecl | .protocolDecl | .functionDecl | .typealiasDecl
  | .associatedTypeDecl | .enumCaseElement | .operatorDecl | .precedenceGroupDecl => true
  | _ => false

namespace Tree

/-! ## Keywords and names -/

theorem tokens_of_opt_node {all : List Token} {kinds : List NodeKind} {f : List Tree}
    (h : (Layout.opt (.node kinds)).Matches all f) : f.filterMap token? = [] := by
  rcases h with ⟨k, -, cs, rfl⟩ | rfl
  · rfl
  · rfl

namespace Accepted

variable {t : Tree} {kind : NodeKind}

/-- **A declaration begins with its own keyword**, attributes and modifiers aside. -/
theorem exists_keyword (h : t.Accepted) (hkind : t.kind? = some kind) (hdecl : kind.isDecl = true)
    (hif : kind ≠ .ifConfigDecl) : ∃ u, t.childTokens.head? = some u ∧ u.text ∈ keywordsOf kind := by
  obtain ⟨all, cs, rfl, hlaid⟩ := h.here hkind
  have hlayout : childLayout kind = .introduced kind ++ .declared kind := by
    cases kind <;> first | exact absurd rfl hif | rfl | cases hdecl
  obtain ⟨f, g, rfl, ⟨f', f'', rfl, ⟨attributes, modifiers, rfl, hattributes, hmodifiers⟩, u, rfl, -, htext⟩,
      -⟩ :=
    hlayout ▸ hlaid.1
  refine ⟨u, ?_, by simpa [TokenClass.holds] using htext⟩
  rw [childTokens, children, filterMap_append, filterMap_append, filterMap_append,
    tokens_of_opt_node hattributes, tokens_of_opt_node hmodifiers]
  rfl

/-- A clause of conditional compilation begins with its directive. -/
theorem exists_directive (h : t.Accepted) (hkind : t.kind? = some .ifConfigClause) :
    ∃ u, t.childTokens.head? = some u := by
  obtain ⟨all, cs, rfl, hlaid⟩ := h.here hkind
  obtain ⟨f, g, rfl, hf, -⟩ := hlaid.1
  rcases hf with ⟨u, rfl, -⟩ | ⟨f', f'', rfl, ⟨u, rfl, -⟩, -⟩
  · exact ⟨u, rfl⟩
  · exact ⟨u, rfl⟩

/-- Conditional compilation ends with a token, and its first clause has a condition. -/
theorem exists_condition (h : t.Accepted) (hkind : t.kind? = some .ifConfigDecl) :
    (∃ u, t.childTokens.head? = some u) ∧
      ∃ clause condition, t.child? .ifConfigClause = some clause ∧
        clause.child? .ifConfigCondition = some condition ∧ condition.kind? = some .ifConfigCondition ∧
        condition.Accepted := by
  obtain ⟨all, cs, rfl, hlaid⟩ := h.here hkind
  obtain ⟨f, g, rfl, ⟨f', f'', rfl, ⟨ds, rfl, hclause⟩, hclauses⟩, u, rfl, -⟩ := hlaid.1
  obtain ⟨d, e, rfl, ⟨d', d'', rfl, ⟨v, rfl, -⟩, k, hk, es, rfl⟩, -⟩ := hclause
  cases mem_singleton.mp hk
  refine ⟨?_, _, _, rfl, rfl, rfl, ?_⟩
  · refine Option.isSome_iff_exists.mp (isSome_head?.mpr fun hnil => ?_)
    have hmem : u ∈ (node .ifConfigDecl
        ([.node .ifConfigClause ([.token v] ++ [.node .ifConfigCondition es] ++ e)] ++ f'' ++
          [.token u])).childTokens := mem_filterMap.mpr ⟨.token u, by simp [children], rfl⟩
    rw [hnil] at hmem
    cases hmem
  · have hclause : Accepted (.node .ifConfigClause ([.token v] ++ [.node .ifConfigCondition es] ++ e)) :=
      h.child (by simp [children])
    exact hclause.child (by simp [children])

theorem exists_name (h : t.Accepted) (hnamed : t.kind?.any NodeKind.isNamed = true) :
    ∃ u, t.child? .name = some u ∧ u.text ≠ "" := by
  obtain ⟨kind, hkind, hnamed⟩ := (Option.any_eq_true _ _).mp hnamed
  have hcount : (childLayout kind).count (.ofKinds (· == .name)) = some 1 := by
    revert hnamed
    cases kind <;> decide
  obtain ⟨u, hu, hname, haccepted⟩ := h.exists_child hkind hcount
  exact ⟨u, hu, haccepted.text_ne_empty (by rw [hname]; rfl)⟩

theorem exists_extended (h : t.Accepted) (hkind : t.kind? = some .extensionDecl) :
    ∃ u, t.childType? = some u ∧ u.text ≠ "" := by
  obtain ⟨u, hu, htype, haccepted⟩ := h.exists_childType hkind (by decide)
  refine ⟨u, hu, haccepted.text_ne_empty ?_⟩
  obtain ⟨k, hk, htype⟩ := (Option.any_eq_true _ _).mp htype
  rw [hk, Option.any_some, NodeKind.isSolid, htype, Bool.true_or]

/-- **A declaration has a name.** -/
theorem declaredName_ne_empty (h : t.Accepted)
    (hkind : t.kind?.any NodeKind.isNamed = true ∨ t.kind? = some .extensionDecl) : t.declaredName ≠ "" := by
  rcases hkind with hnamed | hextension
  · obtain ⟨u, hu, htext⟩ := h.exists_name hnamed
    rw [declaredName, hu]
    exact htext
  · obtain ⟨u, hu, htext⟩ := h.exists_extended hextension
    have hnone : t.child? .name = none := by
      obtain ⟨all, cs, rfl, hlaid⟩ := h.here hextension
      rw [child?, isKind_eq_any, List.find?_eq_none]
      intro c hc
      rw [kind_of_count hlaid (by decide) hc]
      exact Bool.false_ne_true
    rw [declaredName, hnone]
    have hself : t.isKind .extensionDecl = true := beq_iff_eq.mpr hextension
    rw [if_pos hself, hu]
    exact htext

end Accepted

end Tree

namespace Place

variable {p : Place} {kind k : NodeKind}

/-! ## Parts of a node -/

theorem exists_child (h : p.tree.Accepted) (hkind : p.kind? = some kind)
    (hcount : (childLayout kind).count (.ofKinds (· == k)) = some 1) :
    ∃ q, p.child? k = some q ∧ q.kind? = some k ∧ q.tree.Accepted := by
  obtain ⟨u, hu, hk, haccepted⟩ := h.exists_child hkind hcount
  exact ⟨p.down u, by rw [child?, hu]; rfl, hk, haccepted⟩

theorem exists_childType (h : p.tree.Accepted) (hkind : p.kind? = some kind)
    (hcount : (childLayout kind).count (.ofKinds NodeKind.isType) = some 1) :
    ∃ q, p.childType? = some q ∧ q.tree.Accepted := by
  obtain ⟨u, hu, -, haccepted⟩ := h.exists_childType hkind hcount
  exact ⟨p.down u, by rw [childType?, hu]; rfl, haccepted⟩

/-- What is read from the parts of a node is there, so that no default takes its place. -/
structure DefaultsUnused (p : Place) : Prop where
  /-- A declaration and a clause of conditional compilation have a token of their own. -/
  keyword : p.kind?.any (fun kind => kind.isDecl || kind == .ifConfigClause) = true →
    ∃ t, p.tree.childTokens.head? = some t
  name : p.kind?.any NodeKind.isNamed = true → ∃ t, p.tree.child? .name = some t
  extended : p.kind? = some .extensionDecl → ∃ t, p.tree.childType? = some t
  aliased : p.kind? = some .typealiasDecl → ∃ q, (p.child? .typeInitializer).bind childType? = some q
  closing : p.kind? = some .functionType → p.tree.hasToken ")" = true
  returned : p.kind? = some .functionType → ∃ q, p.childType? = some q
  pattern : p.kind? = some .patternBinding → ∃ q, p.child? .pattern = some q
  path : p.kind? = some .importDecl → ∃ q, p.child? .importPath = some q
  body : p.kind? = some .precedenceGroupDecl → ∃ q, p.child? .opaqueBlock = some q
  condition : p.kind? = some .ifConfigDecl → ∃ text, (p.child? .ifConfigClause).bind condition? = some text

theorem hasToken_of_fitsSchema {cs : List Tree} (h : Tree.FitsSchema .functionType cs) :
    (Tree.node .functionType cs).hasToken ")" = true := by
  obtain ⟨t, ht⟩ := h.oneToken rfl ")" (by decide)
  have hmem : t ∈ (Tree.node .functionType cs).childTokens.filter (·.text == ")") := by
    rw [ht]
    exact mem_singleton_self t
  exact any_eq_true.mpr ⟨t, (mem_filter.mp hmem).1, (mem_filter.mp hmem).2⟩

theorem defaultsUnused (h : p.tree.Accepted) : p.DefaultsUnused where
  keyword hkind := by
    obtain ⟨kind, hkind, hdecl⟩ := (Option.any_eq_true _ _).mp hkind
    rw [Bool.or_eq_true, beq_iff_eq] at hdecl
    rcases hdecl with hdecl | rfl
    · by_cases hif : kind = .ifConfigDecl
      · exact (h.exists_condition (hif ▸ hkind)).1
      · obtain ⟨u, hu, -⟩ := h.exists_keyword hkind hdecl hif
        exact ⟨u, hu⟩
    · exact h.exists_directive hkind
  name hkind := have ⟨u, hu, _⟩ := h.exists_name hkind; ⟨u, hu⟩
  extended hkind := have ⟨u, hu, _⟩ := h.exists_extended hkind; ⟨u, hu⟩
  aliased hkind := by
    obtain ⟨q, hq, hqkind, haccepted⟩ := exists_child (k := .typeInitializer) h hkind (by decide)
    obtain ⟨r, hr, -⟩ := exists_childType haccepted hqkind (by decide)
    exact ⟨r, by rw [hq, Option.bind_some, hr]⟩
  closing hkind := by
    obtain ⟨all, cs, htree, hlaid⟩ := h.here hkind
    rw [htree]
    exact hasToken_of_fitsSchema (Tree.fitsSchema_of_laidOut hlaid)
  returned hkind := have ⟨q, hq, _⟩ := exists_childType h hkind (by decide); ⟨q, hq⟩
  pattern hkind := have ⟨q, hq, _⟩ := exists_child h hkind (by decide); ⟨q, hq⟩
  path hkind := have ⟨q, hq, _⟩ := exists_child h hkind (by decide); ⟨q, hq⟩
  body hkind := have ⟨q, hq, _⟩ := exists_child h hkind (by decide); ⟨q, hq⟩
  condition hkind := by
    obtain ⟨-, clause, condition, hclause, hcondition, -⟩ := h.exists_condition hkind
    refine ⟨condition.text, ?_⟩
    rw [child?, hclause, Option.map_some, Option.bind_some, condition?, child?,
      show (p.down clause).tree = clause from rfl, hcondition]
    rfl

/-! ## Lists of descriptors -/

/-- The descriptors are those of the types in the nodes of a clause, one for each node, and the nodes are
of one kind. -/
structure DescribesEach (clause : Place) (kind : NodeKind) (ds : List Descriptor) : Prop where
  kinds : ∀ q ∈ clause.childNodes, q.kind? = some kind
  types : clause.childNodes.map (fun q => q.childType?.map decompose) = ds.map some

theorem map_eq_map_some {f : Place → Option Place} {g : Place → Descriptor} {qs : List Place}
    (h : ∀ q ∈ qs, ∃ r, f q = some r) :
    qs.map (fun q => (f q).map g) = ((qs.filterMap f).map g).map some := by
  induction qs with
  | nil => rfl
  | cons q qs ih =>
    obtain ⟨r, hr⟩ := h q mem_cons_self
    rw [List.map_cons, filterMap_cons_some hr, List.map_cons, List.map_cons, hr,
      ih fun q hq => h q (mem_cons_of_mem _ hq)]
    rfl

/-- **No node of a clause is lost**, if each has a type. -/
theorem describesEach {clause : Place} (h : clause.tree.Accepted) (hkind : clause.kind? = some kind)
    (honly : (childLayout kind).count (.ofKinds (· != k)) = some 0)
    (htype : (childLayout k).count (.ofKinds NodeKind.isType) = some 1) :
    clause.DescribesEach k ((clause.childNodes.filterMap childType?).map decompose) := by
  have hkinds : ∀ q ∈ clause.childNodes, q.kind? = some k ∧ q.tree.Accepted := by
    intro q hq
    obtain ⟨u, hu, rfl⟩ := mem_map.mp hq
    exact ⟨h.isKind_of_mem hkind honly hu, h.child (mem_filter.mp hu).1⟩
  refine ⟨fun q hq => (hkinds q hq).1, map_eq_map_some fun q hq => ?_⟩
  obtain ⟨r, hr, -⟩ := exists_childType (hkinds q hq).2 (hkinds q hq).1 htype
  exact ⟨r, hr⟩

/-- The descriptors are those of the parameters of a declaration. -/
def DescribesParameters (p : Place) (ds : List Descriptor) : Prop :=
  ∃ clause, (p.child? .functionSignature).bind (child? .parameterClause) = some clause ∧
    clause.DescribesEach .functionParameter ds

/-- The descriptors are those of the associated values of an element of a case declaration, which may
have no clause for them. -/
def DescribesValues (element : Place) (ds : List Descriptor) : Prop :=
  (element.child? .enumCaseParameterClause = none ∧ ds = []) ∨
    ∃ clause, element.child? .enumCaseParameterClause = some clause ∧
      clause.DescribesEach .enumCaseParameter ds

/-- A node has a descriptor for each of its parameters, associated values, elements and generic arguments. -/
structure ListsEach (p : Place) : Prop where
  parameters : p.kind?.any [.functionDecl, .initializerDecl, .subscriptDecl].contains = true →
    p.DescribesParameters p.parameters
  values : p.kind? = some .enumCaseElement → ∀ decl : Place,
    p.DescribesValues (decl.enumCaseRecord p).associatedValues
  elements : p.kind?.any [.functionType, .tupleType].contains = true →
    ∃ list, p.child? .tupleTypeElementList = some list ∧
      list.DescribesEach .tupleTypeElement (p.elementTypes.map decompose)
  arguments : ∀ clause, p.child? .genericArgumentClause = some clause →
    clause.DescribesEach .genericArgument (p.argumentTypes.map decompose)

theorem of_child? {q : Place} (h : p.tree.Accepted) (hq : p.child? k = some q) :
    q.kind? = some k ∧ q.tree.Accepted := by
  obtain ⟨u, hu, rfl⟩ := Option.map_eq_some_iff.mp hq
  have hkind : u.isKind k = true := List.find?_some hu
  exact ⟨beq_iff_eq.mp hkind, h.child (mem_of_find?_eq_some hu)⟩

theorem listsEach (h : p.tree.Accepted) : p.ListsEach where
  parameters hkind := by
    obtain ⟨kind, hkind, hmem⟩ := (Option.any_eq_true _ _).mp hkind
    have hcount : (childLayout kind).count (.ofKinds (· == .functionSignature)) = some 1 := by
      revert hmem
      cases kind <;> decide
    obtain ⟨s, hs, hskind, hsaccepted⟩ := exists_child h hkind hcount
    obtain ⟨c, hc, hckind, hcaccepted⟩ := exists_child (k := .parameterClause) hsaccepted hskind (by decide)
    have hclause : (p.child? .functionSignature).bind (child? .parameterClause) = some c := by
      rw [hs, Option.bind_some, hc]
    refine ⟨c, hclause, ?_⟩
    rw [parameters, hclause]
    exact describesEach hcaccepted hckind (by decide) (by decide)
  values hkind decl := by
    rw [enumCaseRecord]
    cases hc : p.child? .enumCaseParameterClause with
    | none => exact .inl ⟨hc, rfl⟩
    | some c =>
      obtain ⟨hckind, hcaccepted⟩ := of_child? h hc
      exact .inr ⟨c, hc, describesEach hcaccepted hckind (by decide) (by decide)⟩
  elements hkind := by
    obtain ⟨kind, hkind, hmem⟩ := (Option.any_eq_true _ _).mp hkind
    have hcount : (childLayout kind).count (.ofKinds (· == .tupleTypeElementList)) = some 1 := by
      revert hmem
      cases kind <;> decide
    obtain ⟨l, hl, hlkind, hlaccepted⟩ := exists_child h hkind hcount
    refine ⟨l, hl, ?_⟩
    rw [elementTypes, hl]
    exact describesEach hlaccepted hlkind (by decide) (by decide)
  arguments clause hclause := by
    obtain ⟨hckind, hcaccepted⟩ := of_child? h hclause
    rw [argumentTypes, hclause]
    exact describesEach hcaccepted hckind (by decide) (by decide)

/-! ## Records -/

/-- The keyword is the one that introduces the declaration; conditional compilation has its first
directive. -/
def OwnsKeyword (p : Place) (keyword : String) : Prop :=
  (p.kind? = some .ifConfigDecl ∧ keyword = "#if") ∨
    ∃ kind t, p.kind? = some kind ∧ p.tree.childTokens.head? = some t ∧
      t.text ∈ keywordsOf kind ∧ keyword = t.text

theorem OwnsKeyword.ne_empty {keyword : String} (h : p.OwnsKeyword keyword) : keyword ≠ "" := by
  rcases h with ⟨-, rfl⟩ | ⟨kind, t, -, -, htext, rfl⟩
  · decide
  · have hnone : "" ∉ declarationKeywords := by decide
    intro hempty
    exact hnone (hempty ▸ (mem_filter.mp htext).1)

theorem ownsKeyword (h : p.tree.Accepted) (hkind : p.kind? = some kind) (hdecl : kind.isDecl = true)
    (hif : kind ≠ .ifConfigDecl) : p.OwnsKeyword p.tree.keyword := by
  obtain ⟨t, ht, htext⟩ := h.exists_keyword hkind hdecl hif
  exact .inr ⟨kind, t, hkind, ht, htext, by rw [Tree.keyword, ht]; rfl⟩

theorem text_ne_empty_of_child? {q : Place} (h : p.tree.Accepted) (hq : p.child? k = some q)
    (hsolid : k.isSolid = true) : q.text ≠ "" := by
  obtain ⟨hkind, haccepted⟩ := of_child? h hq
  exact haccepted.text_ne_empty (by rw [show q.tree.kind? = some k from hkind]; exact hsolid)

/-- **The records of a declaration have its own keyword.** -/
theorem ownsKeyword_of_mem_declarations (h : p.tree.Accepted) {d : Declaration} (hd : d ∈ p.declarations) :
    p.OwnsKeyword d.header.keyword := by
  unfold declarations at hd
  split at hd
  case h_11 hkind =>
    obtain ⟨b, -, rfl⟩ := mem_map.mp hd
    exact ownsKeyword h hkind rfl nofun
  case h_14 hkind =>
    obtain ⟨e, -, rfl⟩ := mem_map.mp hd
    exact ownsKeyword h hkind rfl nofun
  case h_18 hkind =>
    rw [mem_singleton.mp hd]
    exact .inl ⟨hkind, rfl⟩
  case h_19 => cases hd
  all_goals
    next hkind =>
    rw [mem_singleton.mp hd]
    exact ownsKeyword h hkind rfl nofun

/-- **The records of a declaration have a name.** -/
theorem name_ne_empty_of_mem_declarations (h : p.tree.Accepted) {d : Declaration} (hd : d ∈ p.declarations) :
    d.header.name ≠ "" := by
  have hnamed (hkind : p.kind?.any NodeKind.isNamed = true) : p.tree.declaredName ≠ "" :=
    h.declaredName_ne_empty (.inl hkind)
  have hbyKeyword {kind : NodeKind} (hkind : p.kind? = some kind) (hdecl : kind.isDecl = true)
      (hif : kind ≠ .ifConfigDecl) : p.tree.keyword ≠ "" := (ownsKeyword h hkind hdecl hif).ne_empty
  unfold declarations at hd
  split at hd
  case h_6 hkind =>
    rw [mem_singleton.mp hd]
    exact h.declaredName_ne_empty (.inr hkind)
  -- initializers, deinitializers and subscripts go by their keyword
  case h_8 hkind | h_9 hkind | h_10 hkind =>
    rw [mem_singleton.mp hd]
    exact hbyKeyword hkind rfl nofun
  case h_11 hkind =>
    obtain ⟨b, hb, rfl⟩ := mem_map.mp hd
    obtain ⟨hb, hbkind⟩ := mem_filter.mp hb
    obtain ⟨u, hu, rfl⟩ := mem_map.mp hb
    have haccepted : (p.down u).tree.Accepted := h.child (mem_filter.mp hu).1
    obtain ⟨q, hq⟩ := (defaultsUnused haccepted).pattern (beq_iff_eq.mp hbkind)
    show (((p.down u).child? .pattern).map text).getD "" ≠ ""
    rw [hq]
    exact text_ne_empty_of_child? haccepted hq (by decide)
  case h_14 hkind =>
    obtain ⟨e, he, rfl⟩ := mem_map.mp hd
    obtain ⟨he, hekind⟩ := mem_filter.mp he
    obtain ⟨u, hu, rfl⟩ := mem_map.mp he
    have haccepted : (p.down u).tree.Accepted := h.child (mem_filter.mp hu).1
    have hkind : (p.down u).tree.kind? = some .enumCaseElement := beq_iff_eq.mp hekind
    exact haccepted.declaredName_ne_empty (.inl (by rw [hkind]; rfl))
  case h_15 hkind =>
    rw [mem_singleton.mp hd]
    obtain ⟨q, hq⟩ := (defaultsUnused h).path hkind
    show ((p.child? .importPath).map text).getD "" ≠ ""
    rw [hq]
    exact text_ne_empty_of_child? h hq (by decide)
  case h_18 hkind =>
    rw [mem_singleton.mp hd]
    obtain ⟨-, clause, condition, hclause, hcondition, hckind, haccepted⟩ := h.exists_condition hkind
    show ((p.child? .ifConfigClause).bind condition?).getD "" ≠ ""
    rw [child?, hclause, Option.map_some, Option.bind_some, condition?, child?,
      show (p.down clause).tree = clause from rfl, hcondition]
    exact haccepted.text_ne_empty (by rw [hckind]; rfl)
  case h_19 => cases hd
  all_goals
    next hkind =>
    rw [mem_singleton.mp hd]
    exact hnamed (by rw [hkind]; rfl)

theorem accepted_of_reachable {tree : Tree} (h : tree.Accepted) (hp : p ∈ reachable tree) : p.tree.Accepted :=
  h.contains (contains_of_mem_nodesOfTree (mem_filter.mp hp).1)

/-- The owner of a declaration has a keyword and a name. -/
theorem ne_empty_of_owner? {tree : Tree} (h : tree.Accepted) (hp : p ∈ reachable tree) {o : Owner}
    (ho : p.owner? = some o) : o.keyword ≠ "" ∧ o.name ≠ "" := by
  rw [owner?_eq_head?] at ho
  obtain ⟨a, ha, rfl⟩ := Option.map_eq_some_iff.mp ho
  obtain ⟨ha, hcontainer⟩ := mem_filter.mp (mem_of_mem_head? ha)
  have haccepted := accepted_of_reachable h (reachable_of_mem_ancestors hp ha)
  have hrecord := containerRecord_mem_declarations hcontainer
  exact ⟨(ownsKeyword_of_mem_declarations haccepted hrecord).ne_empty,
    name_ne_empty_of_mem_declarations haccepted hrecord⟩

end Place

/-! ## Outlines -/

section

variable {source : String} {tree : Tree}

/-- What a header says of a declaration of the tree: where it is, its own keyword, a name, and an owner
with both. -/
def Header.IsComplete (tree : Tree) (h : Header) : Prop :=
  (h.keyword ≠ "" ∧ h.name ≠ "" ∧ ∀ o, h.owner = some o → o.keyword ≠ "" ∧ o.name ≠ "") ∧
    ∃ p ∈ reachable tree, h.span = p.span ∧ p.OwnsKeyword h.keyword

theorem isComplete_of_mem_headers (h : tree.Accepted) {k : DeclarationKind} {hd : Header}
    (hmem : hd ∈ ((root tree).collect.locate (some source)).headers k) : hd.IsComplete tree := by
  obtain ⟨p, hp, d, hd, rfl⟩ := exists_declaration_of_mem_locate hmem
  have haccepted := accepted_of_reachable h hp
  have hkeyword := ownsKeyword_of_mem_declarations haccepted hd
  obtain ⟨hspan, howner⟩ := header_of_mem_declarations hd
  refine ⟨⟨hkeyword.ne_empty, name_ne_empty_of_mem_declarations haccepted hd, fun o ho => ?_⟩,
    p, hp, hspan, hkeyword⟩
  exact ne_empty_of_owner? h hp (howner ▸ ho)

/-- The records of an outline have one descriptor for each parameter or associated value of a declaration
of the tree. -/
structure Outline.ListsEach (tree : Tree) (o : Outline) : Prop where
  functions : ∀ r ∈ o.functions, ∃ p ∈ reachable tree,
    p.kind? = some .functionDecl ∧ r.header.span = p.span ∧ p.DescribesParameters r.parameters
  initializers : ∀ r ∈ o.initializers, ∃ p ∈ reachable tree,
    p.kind? = some .initializerDecl ∧ r.header.span = p.span ∧ p.DescribesParameters r.parameters
  subscripts : ∀ r ∈ o.subscripts, ∃ p ∈ reachable tree,
    p.kind? = some .subscriptDecl ∧ r.header.span = p.span ∧ p.DescribesParameters r.parameters
  enumCases : ∀ r ∈ o.enumCases, ∃ p ∈ reachable tree, p.kind? = some .enumCaseDecl ∧ r.header.span = p.span ∧
    ∃ element ∈ p.childNodes, element.kind? = some .enumCaseElement ∧
      r.header.name = element.tree.declaredName ∧
      element.DescribesValues r.associatedValues

theorem listsEach_locate (h : tree.Accepted) :
    ((root tree).collect.locate (some source)).ListsEach tree := by
  have hlists {kind : NodeKind} {p : Place} (hp : p ∈ reachable tree) (hkind : p.isKind kind = true)
      (hmem : [.functionDecl, .initializerDecl, .subscriptDecl].contains kind = true) :
      p.kind? = some kind ∧ p.DescribesParameters p.parameters := by
    have hkind : p.kind? = some kind := beq_iff_eq.mp hkind
    exact ⟨hkind, (listsEach (accepted_of_reachable h hp)).parameters (by rw [hkind]; exact hmem)⟩
  rw [Outline.locate_some, collect, Outline.ofDeclarations_flatMap, visited_eq_reachable]
  constructor
  case functions | initializers | subscripts =>
    intro r hr
    simp only [Outline.mapHeaders, Outline.ofNodes, map_map, mem_map, mem_filter] at hr
    obtain ⟨p, ⟨hp, hkind⟩, rfl⟩ := hr
    obtain ⟨hkind, hdescribes⟩ := hlists hp hkind (by decide)
    exact ⟨p, hp, hkind, rfl, hdescribes⟩
  case enumCases =>
    intro r hr
    simp only [Outline.mapHeaders, Outline.ofNodes, mem_map, mem_flatMap, mem_filter] at hr
    obtain ⟨_, ⟨p, ⟨hp, hkind⟩, element, ⟨helement, hekind⟩, rfl⟩, rfl⟩ := hr
    have hekind : element.kind? = some .enumCaseElement := beq_iff_eq.mp hekind
    have heaccepted : element.tree.Accepted := by
      obtain ⟨u, hu, rfl⟩ := mem_map.mp helement
      exact (accepted_of_reachable h hp).child (mem_filter.mp hu).1
    exact ⟨p, hp, beq_iff_eq.mp hkind, rfl, element, helement, hekind, rfl,
      (listsEach heaccepted).values hekind p⟩

end

/-- What the readers of the tree of a text rely on. -/
structure Tree.IsComplete (source : String) (tree : Tree) : Prop where
  /-- Storing a source never wraps a node where there is none. -/
  sourceStored : parseSource source = .ok tree → ∀ narrow : Nat → Nat,
    (∀ i < max tree.nodeCount tree.tokens.length, narrow i = i) →
      ∃ cells, storeSource narrow source = .ok (some cells)
  typeStored : parseType source = .ok tree → ∀ narrow : Nat → Nat,
    (∀ i < max tree.nodeCount tree.tokens.length, narrow i = i) →
      ∃ cells, storeType narrow source = .ok (some cells)
  schema : tree.Every Tree.FitsSchema
  /-- No default is used for a part, and none of the entries of a list is lost. -/
  parts : ∀ p ∈ (Place.root tree).nodes, p.DefaultsUnused ∧ p.ListsEach
  /-- A type given as text is the type that was read. -/
  sole : parseType source = .ok tree →
    ∃ p, (Place.root tree).childType? = some p ∧ decomposeType source = .ok p.decompose
  /-- Each record has the declaration's own keyword and a name, and one descriptor for each parameter or
  value. -/
  records : parseSource source = .ok tree →
    ∃ o, outlineOf source = .ok o ∧ (∀ k, ∀ hd ∈ o.headers k, hd.IsComplete tree) ∧ o.ListsEach tree

/-- **An accepted tree is what its readers take it for**, by the layout of its nodes (`laidOut_of_parse`). -/
theorem accepted_tree_is_complete {source : String} {tree : Tree}
    (h : parseSource source = .ok tree ∨ parseType source = .ok tree) : tree.IsComplete source := by
  have haccepted := Tree.accepted_of_parse h
  refine ⟨?_, ?_, (laidOut_of_parse h).imp fun _ _ => Tree.fitsSchema_of_laidOut, ?_, ?_, ?_⟩
  · intro hsource narrow hroom
    obtain ⟨_, cells, -, -, hstored, -⟩ := isStored_of_parseSource hroom hsource
    exact ⟨cells, hstored⟩
  · intro htype narrow hroom
    obtain ⟨_, cells, -, -, hstored, -⟩ := isStored_of_parseType hroom htype
    exact ⟨cells, hstored⟩
  · intro p hp
    have hp : p.tree.Accepted := haccepted.contains (Place.contains_of_mem_nodesOfTree hp)
    exact ⟨Place.defaultsUnused hp, Place.listsEach hp⟩
  · intro htype
    obtain ⟨-, trees, rfl⟩ := tokens_of_parseWith Rule.lawful_soleType Rule.rest_of_soleType htype
    obtain ⟨p, hp, -⟩ :=
      Place.exists_childType (p := .root (.node .typeRoot trees)) haccepted rfl (by decide +kernel)
    refine ⟨p, hp, ?_⟩
    rw [decomposeType, htype, Except.map, hp]
  · intro hsource
    refine ⟨_, by rw [outlineOf, hsource]; rfl, fun k hd => isComplete_of_mem_headers haccepted, ?_⟩
    exact listsEach_locate haccepted

/-- An enumeration with a case of two values and a method, and a block of conditional compilation. -/
theorem accepted_tree_is_complete_members : ∃ source o,
    source = "enum E \x7b case a(Int, x: [T]?)\nfunc f(b c: (T) -> U...) \x7b\x7d \x7d\n#if D\n#endif" ∧
    outlineOf source = .ok o ∧ (∃ tree, parseSource source = .ok tree ∧ tree.IsComplete source) ∧
    o.enumCases.map (fun r => (r.header.keyword, r.header.name, r.associatedValues.length)) =
      [("case", "a", 2)] ∧
    o.functions.map (fun r => (r.header.keyword, r.header.name, r.parameters.length)) = [("func", "f", 1)] ∧
    o.conditionalBlocks.map (fun r => (r.header.keyword, r.header.name)) = [("#if", "D")] := by
  have hcomplete {source : String} {o : Outline} (ho : outlineOf source = .ok o) :
      ∃ tree, parseSource source = .ok tree ∧ tree.IsComplete source :=
    (ok_of_map_eq_ok ho).imp fun tree h => ⟨h.1, accepted_tree_is_complete (.inl h.1)⟩
  exact (exists_ok_of_test (by decide +kernel)).elim fun o h => ⟨_, o, rfl, h.1, hcomplete h.1, h.2⟩

end SwiftOutline
