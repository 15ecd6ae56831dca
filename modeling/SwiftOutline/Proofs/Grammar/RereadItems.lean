import SwiftOutline.Proofs.Grammar.Introducer

/-!
# `RereadItems` — declarations and statements with another rest

An item is read again with another rest (`rereads_item`) if no question about how it goes on is answered
by what is exchanged (`ItemEnds`). Three things depend on what the new rest is. An expression may stop
before the observers of a property, which it knows by a brace and the word behind it. An item ends in a
block that may be left out, so the brace of another block must not follow. And a statement must not begin
to look like a declaration.
-/

namespace SwiftOutline

open Lookahead SwiftOutline.Tree

namespace Rule

/-- **What is exchanged does not answer how an item goes on.** Behind an expression a rest with `Ex` is
fit, behind a statement one with `It`, and behind other items one with `Dn`. -/
structure ItemEnds (all : List Token) (E Ex It Dn : Exchange) : Prop where
  types : TypeEnds all E Always
  sees : ∀ {text}, text ≠ "#endif" → Quiet E (sees text)
  isWordAt : ∀ n, Quiet E (isWordAt n)
  textAt : ∀ n (q : String → Bool), q "" = false → q "#endif" = false → Quiet E fun ts => q (textAt n ts)
  punct : Quiet E fun ts => ts[1]?.any (·.kind == .punct)
  operators : Quiet E fun ts => seesOperator ts && ts.head?.any Token.isAdjacent
  line : Quiet E fun ts => !(seesEnd ts || seesNewline ts)
  exprRun : Rereads all E Anywhere Ex exprRun exprRun
  statementRun : Rereads all E Anywhere Ex statementRun statementRun
  requirements : Rereads all E Anywhere Always requirements requirements
  undeclared : ∀ {ts ts'}, Token.Tail all ts → Exchanged E ts ts' → It ts ts' → declarationStart? ts = none →
    declarationStart? ts' = none
  offBrace : ∀ {ts ts'}, Exchanged E ts ts' → SwiftOutline.sees "\x7b" ts = false → Ex ts ts'
  twoTokens : ∀ {us : List Token} (ts ts'), 2 ≤ us.length → Ex (us ++ ts) (us ++ ts')
  item_prepend : ∀ {ts ts'} us, It ts ts' → It (us ++ ts) (us ++ ts')
  item_done : ∀ {ts ts'}, It ts ts' → Dn ts ts'
  done_expr : ∀ {ts ts'}, Dn ts ts' → Ex ts ts'
  done_item : ∀ {t ts ts'}, t.text = "\x7d" ∨ t.text = "#endif" → Dn ts ts' → It (t :: ts) (t :: ts')

variable {all ts : List Token} {E Ex It Dn fit : Exchange} {pre : List Token → Prop}

theorem ItemEnds.firm (h : ItemEnds all E Ex It Dn) :
    Firm fun ts ts' => It ts ts' ∧ SameHead ts ts' :=
  ⟨fun _ _ => And.right, fun us _ _ hfit => ⟨h.item_prepend us hfit.1, hfit.2.prepend us⟩⟩

theorem length_lt_of_expectWord {what : String} ⦃ts : List Token⦄ ⦃f : List Tree⦄ ⦃rest : List Token⦄
    (h : expectWord what ts = .ok (f, rest)) : rest.length < ts.length := by
  obtain ⟨t, rfl, -, -⟩ := expectWord_eq_ok h
  exact Nat.lt_succ_self _

section

variable {type item : Rule} (hlaw : Lawful type) (hlaw' : Lawful item)

include hlaw

theorem consumes_genericParameter : Consumes (genericParameter type) := by
  refine (((Consumes.seq_right ?_ (lawful_expectWord _) (consumes_expectWord _)).seq_left
    ((lawful_bump.seq hlaw).optional (natural_sees ":"))).seq_left (lawful_separator ">" _)).node _
  exact lawful_bump.optional ((natural_sees "each").and (natural_isWordAt 1))

theorem consumes_genericParameterClause : Consumes (genericParameterClause type) :=
  ((consumes_bump.seq_left ((lawful_genericParameter hlaw).entries ">" _)).seq_left lawful_bump).node _

theorem consumes_functionParameter : Consumes (functionParameter type) := by
  refine (((((Consumes.seq_right ?_ (lawful_expectWord _) (consumes_expectWord _)).seq_left
    (lawful_bump.optional natural_seesWord)).seq_left (lawful_expect ":")).seq_left hlaw).seq_left
    lawful_elementRest).node _
  exact lawful_attributeList.optional (natural_seesKind .atSign)

include hlaw'
omit hlaw

theorem consumes_itemBlock (kind : NodeKind) : Consumes (itemBlock item kind) :=
  (((consumes_expect _).seq_left (hlaw'.entries "\x7d" _)).seq_left lawful_bump).node _

end

/-- A group has two brackets at least. -/
theorem length_of_takeGroup_brace {t : Token} {run rest : List Token} (ht : t.text = "\x7b")
    (h : takeGroup 0 (t :: ts) = some (run, rest)) : 2 ≤ run.length := by
  have hcloser : isCloser t = false := by
    rw [isCloser, ht]
    exact Bool.and_false _
  rw [takeGroup, hcloser, Bool.false_and, if_neg Bool.false_ne_true] at h
  obtain ⟨q, hq, heq⟩ := Option.map_eq_some_iff.mp h
  cases heq
  have hlt := length_lt_of_takeGroup hq
  rw [← takeGroup_append hq, List.length_append] at hlt
  rw [List.length_cons]
  omega

/-! ## Clauses -/

section

theorem rereads_name : Rereads all E pre fit name name := (rereads_expectWord _).node _

theorem rereads_precedenceGroupRest : Rereads all E pre fit precedenceGroupRest precedenceGroupRest :=
  rereads_name.andThen ((rereads_group.require (ofHead_sees "\x7b") consumes_group _).node _)

/-- A token that is read where the next one is a word as well. -/
theorem rereads_optional_two {ask : Lookahead} (hwithin : ask.Within 2) (hquiet : ask.Quiet E)
    (hne : ∀ ⦃ts⦄, ask ts = true → ts ≠ []) :
    Rereads all E pre SameHead (optional ask bump) (optional ask bump) := by
  have hbump : Rereads all E (Asked ask) SameHead bump bump :=
    rereads_bumps fun _ hask => List.length_pos_iff.mpr (hne hask)
  refine hbump.either rereads_nothing ?_ ?_
  · intro ts f rest rest' _ hask h _ hrest
    obtain ⟨t, ts, rfl⟩ := List.exists_cons_of_ne_nil (hne hask)
    cases h
    exact (hwithin.same_second t hrest).trans hask
  · intro ts f rest rest' hask h hx _
    cases h
    exact hquiet.exchanged hx hask

variable (hends : ItemEnds all E Ex It Dn)
include hends

/-- A value may end anywhere its run does (`ItemEnds.exprRun`). -/
theorem rereads_initializer : Rereads all E pre Ex (optional (sees "=") initializerClause)
    (optional (sees "=") initializerClause) := by
  have hclause : Rereads all E (Asked (sees "=")) Ex initializerClause initializerClause :=
    ((rereads_bump (ofHead_sees "=")).andThen ((hends.exprRun.nonempty _).node _)).node _
  exact hclause.optional (ofHead_sees "=") (hends.sees (by decide))
    ((consumes_bump.seq_left lawful_expr).node _)

/-- Requirements end where they did (`ItemEnds.requirements`). -/
theorem rereads_where : Rereads all E pre fit (optional (sees "where") whereClause)
    (optional (sees "where") whereClause) := by
  have hclause : Rereads all E (Asked (sees "where")) fit whereClause whereClause :=
    ((rereads_bump (ofHead_sees "where")).andThen (hends.requirements.always.nonempty _)).node _
  exact hclause.optional (ofHead_sees "where") (hends.sees (by decide))
    ((consumes_bump.seq_left (lawful_requirements.nonempty _)).node _)

theorem rereads_accessors : Rereads all E pre fit (optional (sees "\x7b") accessorBlock)
    (optional (sees "\x7b") accessorBlock) :=
  (rereads_group.node _).optional (ofHead_sees "\x7b") (hends.sees (by decide)) (consumes_group.node _)

/-- Operators go on where they touch. -/
theorem rereads_functionName : Rereads all E pre fit functionName functionName := by
  have hadjacent : OfHead fun ts => seesOperator ts && ts.head?.any Token.isAdjacent :=
    ofHead_seesOperator.and ⟨_, fun _ => rfl⟩
  have hfirst : Rereads all E pre Always (require seesOperator "name" bump)
      (require seesOperator "name" bump) :=
    (rereads_bump ofHead_seesOperator).require ofHead_seesOperator consumes_bump _
  exact (Rereads.either_head (rereads_bump ofHead_seesWord)
    (hfirst.andThen ((rereads_bump hadjacent).many_head hadjacent hends.operators consumes_bump))
    ofHead_seesWord (hends.isWordAt 0) consumes_bump).node _

/-- A path goes on with a dot and a name. -/
theorem rereads_importRest : Rereads all E pre fit importRest importRest := by
  have hwithin : Within 2 fun ts => importKinds.contains (textAt 0 ts) && isWordAt 1 ts :=
    ((within_textAt 0 importKinds.contains).mono (Nat.le_succ 1)).and (within_isWordAt 1)
  have hquiet : Quiet E fun ts => importKinds.contains (textAt 0 ts) && isWordAt 1 ts :=
    (hends.textAt 0 importKinds.contains rfl rfl).and (hends.isWordAt 1)
  refine (rereads_optional_two hwithin hquiet ?_).seq_reading
    (((rereads_expectWord _).andThen (rereads_many_bumps ?_ ?_ ?_)).node _) ?_
  · rintro ts hask rfl
    cases hask
  · exact ((ofHead_sees ".").within.mono (Nat.le_succ 1)).and
      ((within_isWordAt 1).or (within_at 1 (·.kind == .punct)))
  · exact (hends.sees (by decide)).and ((hends.isWordAt 1).or hends.punct)
  · intro ts hask
    rw [Bool.and_eq_true, Bool.or_eq_true] at hask
    by_cases hlen : 1 < ts.length
    · exact hlen
    · simp only [isWordAt, List.getElem?_eq_none (Nat.not_lt.mp hlen), Option.any_none,
        Bool.false_eq_true, or_self, and_false] at hask
  · intro ts f rest h
    obtain ⟨cs, hcs, -⟩ := node_eq_ok h
    obtain ⟨f₁, mid, f₂, h₁, h₂, rfl⟩ := seq_eq_ok hcs
    have hparts := (keeps_bumps 2).many
        (fun ts => sees "." ts && (isWordAt 1 ts || ts[1]?.any (·.kind == .punct)))
    have hle := congrArg List.length (hparts h₂)
    have hlt := length_lt_of_expectWord h₁
    rw [List.length_append] at hle
    omega

theorem rereads_operatorRest : Rereads all E pre fit operatorRest operatorRest := by
  have hgroup (text : String) :
      Rereads all E (Asked (sees text)) Always (bump ++ expectWord "precedence group")
      (bump ++ expectWord "precedence group") :=
    (rereads_bump (ofHead_sees text)).andThen (rereads_expectWord _)
  have hreads : Consumes (bump ++ expectWord "precedence group") :=
    consumes_bump.seq_left (lawful_expectWord _)
  have hmore : Rereads all E Anywhere Always (many (sees ",") (bump ++ expectWord "precedence group"))
      (many (sees ",") (bump ++ expectWord "precedence group")) :=
    (hgroup ",").many_head (ofHead_sees ",") (hends.sees (by decide)) hreads
  refine ((rereads_functionName hends).andThen
    (Rereads.optional (((hgroup ":").andThen hmore).node _) (ofHead_sees ":")
    (hends.sees (by decide)) ?_)).andThen
    ((rereads_group.node _).optional (ofHead_sees "\x7b") (hends.sees (by decide)) (consumes_group.node _))
  exact (hreads.seq_left ((lawful_bump.seq (lawful_expectWord _)).many (natural_sees ","))).node _

/-- What stands before accessors is not in front of a brace alone. -/
theorem fit_of_accessors {ts rest rest' : List Token} {f : List Tree}
    (h : optional (sees "\x7b") accessorBlock ts = .ok (f, rest)) (hx : Exchanged E rest rest') :
    Ex ts (forestTokens f ++ rest') := by
  unfold optional either at h
  by_cases hsees : sees "\x7b" ts = true
  · rw [if_pos hsees] at h
    obtain ⟨t, ts, rfl⟩ := (ofHead_sees "\x7b").exists_cons hsees
    obtain ⟨cs, hcs, rfl⟩ := node_eq_ok h
    obtain ⟨run, hrun, rfl⟩ := group_eq_ok hcs
    rw [forestTokens_singleton, tokens_node, forestTokens_map_token, ← takeGroup_append hrun]
    exact hends.twoTokens _ _ (length_of_takeGroup_brace (eq_of_beq hsees) hrun)
  · rw [if_neg hsees] at h
    cases h
    exact hends.offBrace hx (Bool.eq_false_iff.mpr hsees)

/-- What stands before entries that begin with a comma is in front of the comma or of what follows them. -/
theorem fit_of_commas {p : Rule} (hp : Keeps p) {ts rest rest' : List Token} {f : List Tree}
    (h : many (sees ",") p ts = .ok (f, rest)) (hx : Exchanged E rest rest') (hrest : Ex rest rest') :
    Ex ts (forestTokens f ++ rest') := by
  cases hask : sees "," ts with
  | true =>
    refine hends.offBrace ((hp.many _).exchanged h hx) ?_
    obtain ⟨t, ts, rfl⟩ := (ofHead_sees ",").exists_cons hask
    have ht : t.text = "," := eq_of_beq hask
    rw [sees, List.head?_cons, Option.any_some, ht]
    rfl
  | false =>
    rw [many_of_not hask] at h
    cases h
    exact hrest

/-- Entries that begin with a comma. -/
theorem rereads_commas {entry entry' : Rule} (hentry : Rereads all E Anywhere Ex entry entry')
    (hlaw : Lawful entry) :
    Rereads all E pre Ex (many (sees ",") (bump ++ entry)) (many (sees ",") (bump ++ entry')) := by
  have hmore : Rereads all E (Asked (sees ",")) Ex (bump ++ entry) (bump ++ entry') :=
    (rereads_bump (ofHead_sees ",")).andThen hentry
  exact hmore.many_reading (ofHead_sees ",") (hends.sees (by decide)) (consumes_bump.seq_left hlaw)
    fun _ _ _ _ h hx hrest => fit_of_commas hends hmore.keeps h hx hrest

end

section

variable {type type' : Rule} (hends : ItemEnds all E Ex It Dn) (hlaw : Lawful type)
  (hconsumes : Consumes type)
  (htype : Rereads all E Anywhere Always type type')
include hends hlaw hconsumes htype

omit hends hlaw hconsumes in
/-- A type behind the token that announces it. -/
theorem rereads_announced {ask : Lookahead} (hask : ask.OfHead) :
    Rereads all E (Asked ask) fit (bump ++ type) (bump ++ type') :=
  (rereads_bump hask).andThen htype.always

omit hconsumes in
/-- By `Rereads.between`, as `>` closes the list. -/
theorem rereads_genericParameters : Rereads all E pre fit (optional (sees "<") (genericParameterClause type))
    (optional (sees "<") (genericParameterClause type')) := by
  have hwithin : Within 2 fun ts => sees "each" ts && isWordAt 1 ts :=
    ((ofHead_sees "each").within.mono (Nat.le_succ 1)).and (within_isWordAt 1)
  have heach : Rereads all E Before SameHead (optional (fun ts => sees "each" ts && isWordAt 1 ts) bump)
      (optional (fun ts => sees "each" ts && isWordAt 1 ts) bump) := by
    refine rereads_optional_two hwithin ((hends.sees (by decide)).and (hends.isWordAt 1)) ?_
    rintro ts hask rfl
    cases hask
  have hname : Rereads all E Anywhere Always (expectWord "generic parameter name")
      (expectWord "generic parameter name") :=
    rereads_expectWord _
  have hbound : Rereads all E Anywhere Always (optional (sees ":") (bump ++ type))
      (optional (sees ":") (bump ++ type')) :=
    (rereads_announced htype (ofHead_sees ":")).optional (ofHead_sees ":") (hends.sees (by decide))
      (consumes_bump.seq_left hlaw)
  have hentry : Rereads all E Before SameHead (genericParameter type) (genericParameter type') :=
    (((heach.seq_reading hname length_lt_of_expectWord).andThen hbound).andThen
      (rereads_separator ">" _)).node _
  exact (((rereads_bump (ofHead_sees "<")).between_head hentry
    (consumes_genericParameter hlaw) ">" _).node _).optional
    (ofHead_sees "<") (hends.sees (by decide)) (consumes_genericParameterClause hlaw)

omit hconsumes in
theorem rereads_inheritance : Rereads all E pre fit (optional (sees ":") (inheritanceClause type))
    (optional (sees ":") (inheritanceClause type')) :=
  (((rereads_bump (ofHead_sees ":")).andThen (htype.chain (hends.sees (by decide)) _)).node _).optional
    (ofHead_sees ":") (hends.sees (by decide)) ((consumes_bump.seq_left (hlaw.chain _ ",")).node _)

omit hends hlaw hconsumes in
theorem rereads_typeInitializer : Rereads all E pre fit (typeInitializer type) (typeInitializer type') :=
  ((rereads_expect "=").andThen htype.always).node _

omit hlaw hconsumes in
theorem rereads_functionParameter :
    Rereads all E pre SameHead (functionParameter type) (functionParameter type') := by
  have hlabel : Rereads all E Anywhere Always (optional seesWord bump) (optional seesWord bump) :=
    (rereads_bump ofHead_seesWord).optional ofHead_seesWord (hends.isWordAt 0) consumes_bump
  exact ((((((rereads_attributes hends.types).andThen (rereads_expectWord _)).andThen hlabel).andThen
    (rereads_expect ":")).andThen htype).andThen rereads_elementRest).node _

omit hconsumes in
/-- Effects and the result are announced by their tokens. -/
theorem rereads_functionSignature :
    Rereads all E pre fit (functionSignature type) (functionSignature type') := by
  have hparameters : Rereads all E pre Always (parameterClause type) (parameterClause type') :=
    ((rereads_expect "(").between_head (rereads_functionParameter hends htype)
      (consumes_functionParameter hlaw)
      ")" _).node _
  have houtput : Rereads all E Anywhere fit (optional (seesKind .arrow) (node .returnClause (bump ++ type)))
      (optional (seesKind .arrow) (node .returnClause (bump ++ type'))) :=
    ((rereads_announced htype (ofHead_seesKind .arrow)).node _).optional (ofHead_seesKind .arrow)
      (hends.types.seesKind (by decide)) ((consumes_bump.seq_left hlaw).node _)
  exact ((hparameters.andThen (rereads_effects hends.types)).andThen houtput).node _

omit hconsumes in
theorem rereads_signatureRest : Rereads all E pre fit (signatureRest type) (signatureRest type') :=
  ((rereads_genericParameters hends hlaw htype).andThen (rereads_functionSignature hends hlaw htype)).andThen
    (rereads_where hends)

omit hconsumes in
theorem rereads_subscriptRest : Rereads all E pre fit (subscriptRest type) (subscriptRest type') :=
  (rereads_signatureRest hends hlaw htype).andThen (rereads_accessors hends)

omit hconsumes in
theorem rereads_typealiasRest : Rereads all E pre fit (typealiasRest type) (typealiasRest type') :=
  ((rereads_name.andThen (rereads_genericParameters hends hlaw htype)).andThen
    (rereads_typeInitializer htype)).andThen
    (rereads_where hends)

omit hconsumes in
theorem rereads_associatedTypeRest :
    Rereads all E pre fit (associatedTypeRest type) (associatedTypeRest type') := by
  have hdefault : Rereads all E Anywhere Always (optional (sees "=") (typeInitializer type))
      (optional (sees "=") (typeInitializer type')) :=
    (rereads_typeInitializer htype).optional (ofHead_sees "=") (hends.sees (by decide))
      (((consumes_expect "=").seq_left hlaw).node _)
  exact ((rereads_name.andThen (rereads_inheritance hends hlaw htype)).andThen hdefault).andThen
    (rereads_where hends)

/-! ### Bindings and cases

Both may end in an expression. -/

omit hconsumes in
/-- A type, a value and accessors, if they are announced. -/
theorem rereads_patternBinding : Rereads all E pre fit (patternBinding type) (patternBinding type') := by
  have hpattern : Rereads all E pre Always (node .pattern (either (sees "(") group (expectWord "pattern")))
      (node .pattern (either (sees "(") group (expectWord "pattern"))) :=
    (rereads_group.either_head (rereads_expectWord _) (ofHead_sees "(")
      (hends.sees (by decide)) consumes_group).node _
  have htyped : Rereads all E Anywhere Always (optional (sees ":") (node .typeClause (bump ++ type)))
      (optional (sees ":") (node .typeClause (bump ++ type'))) :=
    ((rereads_announced htype (ofHead_sees ":")).node _).optional (ofHead_sees ":") (hends.sees (by decide))
      ((consumes_bump.seq_left hlaw).node _)
  exact (((hpattern.andThen htyped).andThen (rereads_initializer hends)).followed (rereads_accessors hends)
    fun _ _ _ _ _ h hx _ => fit_of_accessors hends h hx).node _

omit hconsumes in
theorem rereads_variableRest : Rereads all E pre Ex (variableRest type) (variableRest type') :=
  (rereads_patternBinding hends hlaw htype).andThen
    (rereads_commas hends (rereads_patternBinding hends hlaw htype) (lawful_patternBinding hlaw))

theorem rereads_enumCaseElement : Rereads all E pre Ex (enumCaseElement type) (enumCaseElement type') := by
  have hreads := consumes_tupleElement hlaw hconsumes .enumCaseParameter
  have hvalues : Rereads all E (Asked (sees "(")) Always
      (node .enumCaseParameterClause (bump ++ elements (tupleElement type .enumCaseParameter) ++ bump))
      (node .enumCaseParameterClause (bump ++ elements (tupleElement type' .enumCaseParameter) ++ bump)) :=
    ((rereads_bump (ofHead_sees "(")).between_head (rereads_tupleElement hends.types htype _)
      hreads ")" _).node _
  refine ((rereads_name.andThen (hvalues.optional (ofHead_sees "(") (hends.sees (by decide)) ?_)).andThen
    (rereads_initializer hends)).node _
  exact ((consumes_bump.seq_left ((lawful_tupleElement hlaw _).entries ")" _)).seq_left lawful_bump).node _

/-- By `rereads_commas`. -/
theorem rereads_enumCaseRest : Rereads all E pre Ex (enumCaseRest type) (enumCaseRest type') := by
  have hmore : Rereads all E Anywhere Ex (many (sees ",") (bump ++ enumCaseElement type))
      (many (sees ",") (bump ++ enumCaseElement type')) :=
    rereads_commas hends (rereads_enumCaseElement hends hlaw hconsumes htype) (lawful_enumCaseElement hlaw)
  exact (rereads_enumCaseElement hends hlaw hconsumes htype).followed hmore
    fun _ _ _ _ _ h hx hrest =>
      fit_of_commas hends (lawful_bump.seq (lawful_enumCaseElement hlaw)).keeps h hx hrest

end

/-! ## Declarations -/

section

variable {type type' item item' : Rule} (hends : ItemEnds all E Ex It Dn) (hlaw : Lawful type)
  (hconsumes : Consumes type)
  (htype : Rereads all E Anywhere Always type type') (hlaw' : Lawful item) (hconsumes' : Consumes item)
  (hitem : Rereads all E Before It item item')
include hends hlaw hconsumes htype hlaw' hconsumes' hitem

omit hlaw hconsumes htype hlaw' in
/-- The braces close what is between them. -/
theorem rereads_itemBlock (kind : NodeKind) :
    Rereads all E pre Dn (itemBlock item kind) (itemBlock item' kind) := by
  have hentry : Rereads all E Before (fun ts ts' => It ts ts' ∧ SameHead ts ts') item item' :=
    hitem.imp (fun _ => id) fun _ _ => And.left
  refine ((rereads_expect "\x7b").between hentry hconsumes' hends.firm "\x7d" _ ?_).node _
  · intro t ts ts' htext hfit
    exact ⟨hends.done_item (.inl htext) hfit, t, ts, ts', rfl, rfl⟩

omit hlaw hconsumes htype in
theorem rereads_body : Rereads all E pre Dn (body item) (body item') :=
  (rereads_itemBlock hends hconsumes' hitem _).optional (ofHead_sees "\x7b") (hends.sees (by decide))
    (consumes_itemBlock hlaw' _)

omit hconsumes hlaw' in
theorem rereads_containerRest : Rereads all E pre Dn (containerRest type item) (containerRest type' item') :=
  (((rereads_genericParameters hends hlaw htype).andThen (rereads_inheritance hends hlaw htype)).andThen
    (rereads_where hends)).andThen (rereads_itemBlock hends hconsumes' hitem _)

/-- By cases on what is declared. -/
theorem rereads_declarationRest (kind : NodeKind) :
    Rereads all E pre Dn (declarationRest type item kind) (declarationRest type' item' kind) := by
  have hcontainer : Rereads all E Anywhere Dn (containerRest type item) (containerRest type' item') :=
    rereads_containerRest hends hlaw htype hconsumes' hitem
  have hbody : Rereads all E Anywhere Dn (body item) (body item') := rereads_body hends hlaw' hconsumes' hitem
  have hsignature : Rereads all E Anywhere Always (signatureRest type) (signatureRest type') :=
    rereads_signatureRest hends hlaw htype
  unfold declarationRest
  split
  · exact rereads_importRest hends
  · exact rereads_name.andThen hcontainer
  · exact rereads_name.andThen hcontainer
  · exact rereads_name.andThen hcontainer
  · exact rereads_name.andThen hcontainer
  · exact rereads_name.andThen hcontainer
  · exact htype.anywhere.andThen hcontainer
  · exact ((rereads_functionName hends).andThen hsignature).andThen hbody
  · have hmark : OfHead fun ts => seesAdjacent "?" ts || seesAdjacent "!" ts :=
      (ofHead_seesAdjacent "?").or (ofHead_seesAdjacent "!")
    have hquiet : Quiet E fun ts => seesAdjacent "?" ts || seesAdjacent "!" ts :=
      (hends.types.seesAdjacent (by decide)).or (hends.types.seesAdjacent (by decide))
    exact (((rereads_bump hmark).optional hmark hquiet consumes_bump).andThen hsignature).andThen hbody
  · exact hbody.anywhere
  · exact rereads_subscriptRest hends hlaw htype
  · exact (rereads_variableRest hends hlaw htype).imp (fun _ => id) fun _ _ => hends.done_expr
  · exact rereads_typealiasRest hends hlaw htype
  · exact rereads_associatedTypeRest hends hlaw htype
  · exact (rereads_enumCaseRest hends hlaw hconsumes htype).imp (fun _ => id) fun _ _ => hends.done_expr
  · exact rereads_operatorRest hends
  · exact rereads_precedenceGroupRest

omit hends hlaw hconsumes htype hlaw' hconsumes' hitem in
/-- The name of an actor is the first token that is read behind its keyword. -/
theorem seesWord_of_actor {ts rest rest' : List Token} {f : List Tree}
    (h : declarationRest type item .actorDecl ts = .ok (f, rest)) :
    seesWord (forestTokens f ++ rest') = true := by
  obtain ⟨f₁, mid, f₂, h₁, -, rfl⟩ := seq_eq_ok h
  obtain ⟨cs, hcs, rfl⟩ := node_eq_ok h₁
  obtain ⟨t, -, hword, rfl⟩ := expectWord_eq_ok hcs
  rw [List.singleton_append, forestTokens_cons, tokens_node, forestTokens_singleton,
    tokens_token]
  exact hword

/-- **A declaration is found and read again.** -/
theorem declaration_again {ts start rest rest' : List Token} {f : List Tree} (htail : Token.Tail all ts)
    (hstart : declarationStart? ts = some start)
    (h : declaration type item (declarationKind (textAt 0 start)) ts = .ok (f, rest))
    (hx : Exchanged E rest rest') (hdone : Dn rest rest') :
    ∃ start', declarationStart? (forestTokens f ++ rest') = some start' ∧
      declaration type' item' (declarationKind (textAt 0 start')) (forestTokens f ++ rest') =
        .ok (f, rest') := by
  obtain ⟨cs, hcs, rfl⟩ := node_eq_ok h
  obtain ⟨f₁, mid, f₂, hintroducer, hrest, rfl⟩ := seq_eq_ok hcs
  have hrule : Rereads all E Anywhere Dn (declarationRest type item (declarationKind (textAt 0 start)))
      (declarationRest type' item' (declarationKind (textAt 0 start))) :=
    rereads_declarationRest hends hlaw hconsumes htype hlaw' hconsumes' hitem _
  have hdetail : Quiet E seesDetail :=
    (((hends.textAt 0 detailedModifiers.contains rfl rfl).and
      (hends.textAt 1 (· == "(") rfl rfl)).and
      (hends.textAt 2 modifierDetails.contains rfl rfl)).and
      (hends.textAt 3 (· == ")") rfl rfl)
  have hmember : Quiet E seesClassMember :=
    (hends.textAt 1 modifierWords.contains rfl rfl).or
      (hends.textAt 1 classMemberKeywords.contains rfl rfl)
  have hactor : textAt 0 start = "actor" → seesWord (forestTokens f₂ ++ rest') = true := by
    intro hactor
    rw [hactor] at hrest
    exact seesWord_of_actor hrest
  obtain ⟨keyword, rfl, hstart', hintroducer'⟩ :=
    introducer_again hends.types hdetail hmember htail hstart hintroducer
      (hrule.keeps.exchanged hrest hx) hactor
  refine ⟨keyword :: (forestTokens f₂ ++ rest'), ?_, ?_⟩
  · rw [forestTokens_singleton, tokens_node, forestTokens_append, List.append_assoc]
    exact hstart'
  · rw [forestTokens_singleton, tokens_node, forestTokens_append, List.append_assoc]
    exact node_ok (seq_ok hintroducer'
      (hrule.again (htail.rest lawful_introducer.keeps hintroducer) trivial hrest hx hdone))

end

/-! ## Conditional compilation -/

section

variable {item : Rule} (hconsumes : Consumes item)
include hconsumes

theorem length_lt_of_clauseItem ⦃ts : List Token⦄ ⦃f : List Tree⦄ ⦃rest : List Token⦄
    (h : require (fun ts => !(seesEnd ts || sees "\x7d" ts)) "'#endif'" item ts = .ok (f, rest)) :
    rest.length < ts.length := by
  unfold require either at h
  split at h
  · next hask =>
    exact hconsumes ((OfHead.not (ofHead_sees "\x7d")).ne_nil hask) h
  · cases h

/-- A clause ends where the next one begins, or before `#endif`. -/
theorem seesClauseEnd_of_clause {ts rest : List Token} {f : List Tree}
    (h : ifConfigClause item ts = .ok (f, rest)) : seesClauseEnd rest = true := by
  obtain ⟨cs, hcs, -⟩ := node_eq_ok h
  obtain ⟨f₁, mid, f₂, -, h₂, -⟩ := seq_eq_ok hcs
  have hask := not_ask_of_many (fun _ _ _ _ hok => length_lt_of_clauseItem hconsumes hok) h₂
  exact Bool.not_eq_false' .. ▸ hask

/-- The clauses run to `#endif`. -/
theorem sees_of_clauses {ts rest : List Token} {f : List Tree} (hlaw : Lawful item)
    (h : (ifConfigClause item ++
      many (fun ts => seesClauseEnd ts && !sees "#endif" ts) (ifConfigClause item)) ts = .ok (f, rest)) :
    sees "#endif" rest = true := by
  obtain ⟨f₁, mid, f₂, h₁, h₂, rfl⟩ := seq_eq_ok h
  have hend : seesClauseEnd rest = true := by
    refine many_induction (motive := fun ts _ rest => seesClauseEnd ts = true → seesClauseEnd rest = true)
      ?_ ?_ ?_ h₂ (seesClauseEnd_of_clause hconsumes h₁)
    · intro ts _ hts
      exact hts
    · intro ts f rest _ hok _ _
      exact seesClauseEnd_of_clause hconsumes hok
    · intro ts f mid f' rest _ hok _ _ ih _
      exact ih (seesClauseEnd_of_clause hconsumes hok)
  have hstop := not_ask_of_many (fun ts f rest hask hok => ?_) h₂
  · rw [hend, Bool.true_and] at hstop
    exact Bool.not_eq_false' .. ▸ hstop
  · rw [Bool.and_eq_true] at hask
    exact consumes_ifConfigClause hlaw (ofHead_seesClauseEnd.ne_nil hask.1) hok

end

section

variable {item item' : Rule} (hends : ItemEnds all E Ex It Dn) (hlaw : Lawful item)
  (hconsumes : Consumes item)
  (hitem : Rereads all E Before It item item')
include hends

/-- A condition ends with its line. -/
theorem rereads_ifConfigCondition : Rereads all E pre fit ifConfigCondition ifConfigCondition := by
  have hline : OfHead fun ts => !(seesEnd ts || seesNewline ts) :=
    OfHead.not (a := seesNewline) ⟨_, fun _ => rfl⟩
  have hcondition : Rereads all E (Asked fun ts => !(seesEnd ts || seesNewline ts)) fit
      (node .ifConfigCondition (bump ++ many (fun ts => !(seesEnd ts || seesNewline ts)) bump))
      (node .ifConfigCondition (bump ++ many (fun ts => !(seesEnd ts || seesNewline ts)) bump)) :=
    ((rereads_bump hline).andThen ((rereads_bump hline).many_head hline hends.line consumes_bump)).node _
  refine hcondition.require hline ?_ _
  exact (consumes_bump.seq_left (lawful_bump.many (natural_seesEnd.or natural_seesNewline).not)).node _

include hconsumes hitem

theorem rereads_ifConfigClause :
    Rereads all E Before (fun ts ts' => It ts ts' ∧ SameHead ts ts') (ifConfigClause item)
    (ifConfigClause item') := by
  have hdirective : Rereads all E Before Always (either (sees "#else") bump (bump ++ ifConfigCondition))
      (either (sees "#else") bump (bump ++ ifConfigCondition)) :=
    (rereads_bump (ofHead_sees "#else")).either_head
      (rereads_bump_before.andThen (rereads_ifConfigCondition hends))
      (ofHead_sees "#else") (hends.sees (by decide)) consumes_bump
  have hasked := OfHead.not (ofHead_sees "\x7d")
  have hentry : Rereads all E (Asked fun ts => !seesClauseEnd ts) (fun ts ts' => It ts ts' ∧ SameHead ts ts')
      (require (fun ts => !(seesEnd ts || sees "\x7d" ts)) "'#endif'" item)
      (require (fun ts => !(seesEnd ts || sees "\x7d" ts)) "'#endif'" item') :=
    (hitem.imp (fun _ => hasked.ne_nil) fun _ _ => And.left).require hasked hconsumes _
  exact (hdirective.andThen
    (hentry.many_same (fun _ _ hsame => congrArg Bool.not (ofHead_seesClauseEnd.same hsame))
    (fun _ _ _ _ h => length_lt_of_clauseItem hconsumes h) hends.firm)).node _

include hlaw

/-- The block is closed by `#endif` (`sees_of_clauses`). -/
theorem rereads_ifConfig : Rereads all E Before Dn (ifConfig item) (ifConfig item') := by
  have hclause := rereads_ifConfigClause hends hconsumes hitem
  have hask : OfHead fun ts => seesClauseEnd ts && !sees "#endif" ts := by
    obtain ⟨q, hq⟩ := ofHead_seesClauseEnd
    refine ⟨fun t => q t && !(t.text == "#endif"), fun ts => ?_⟩
    simp only [hq]
    cases ts <;> rfl
  have hlist : Rereads all E Anywhere (fun ts ts' => It ts ts' ∧ SameHead ts ts')
      (many (fun ts => seesClauseEnd ts && !sees "#endif" ts) (ifConfigClause item))
      (many (fun ts => seesClauseEnd ts && !sees "#endif" ts) (ifConfigClause item')) :=
    Rereads.many_same (hclause.given fun _ => hask.ne_nil) (fun _ _ => hask.same)
      ((consumes_ifConfigClause hlaw).shortens hask) hends.firm
  refine ((hclause.followed hlist ?_).closed "#endif" ?_ ?_).node _
  · intro ts f rest rest' _ h _ hfit
    rw [← hlist.keeps h]
    exact hends.firm.prepend hfit
  · intro ts f rest h
    exact sees_of_clauses hconsumes hlaw h
  · intro t ts ts' htext hfit
    exact ⟨hends.done_item (.inr htext) hfit, t, ts, ts', rfl, rfl⟩

end

/-! ## Items -/

/-- A statement. Since it reads a token, it is asked for again. -/
theorem rereads_statement (hends : ItemEnds all E Ex It Dn) :
    Rereads all E (fun ts => ts ≠ [] ∧ sees ";" ts = false) It statement statement where
  keeps := lawful_statement.keeps
  again ts f rest rest' htail hin h hx hfit := by
    have hsame := lawful_statement.keeps.sameHead h (length_lt_of_statement hin.1 hin.2 h) rest'
    have hrun : Rereads all E Anywhere Ex (node .statement statementRun) (node .statement statementRun) :=
      hends.statementRun.node _
    have hasked : (!(sees "\x7d" (forestTokens f ++ rest') || seesClauseEnd (forestTokens f ++ rest'))) =
        !(sees "\x7d" ts || seesClauseEnd ts) := by
      rw [(ofHead_sees "\x7d").same hsame, ofHead_seesClauseEnd.same hsame]
    unfold statement require either at h ⊢
    split at h
    · next hyes =>
      rw [if_pos (hasked.trans hyes)]
      exact hrun.again htail trivial h hx (hends.done_expr (hends.item_done hfit))
    · cases h

theorem itemBody_semicolon {type item : Rule} (h : sees ";" ts = true) :
    itemBody type item ts = bump ts := by
  rw [itemBody, either, if_pos h]

theorem itemBody_ifConfig {type item : Rule} (hsemi : sees ";" ts = false)
    (h : sees "#if" ts = true) : itemBody type item ts = ifConfig item ts := by
  unfold itemBody either
  simp only [hsemi, h, Bool.false_eq_true, if_false, if_true]

theorem itemBody_declaration {type item : Rule} {start : List Token} (hsemi : sees ";" ts = false)
    (hif : sees "#if" ts = false) (h : declarationStart? ts = some start) :
    itemBody type item ts = declaration type item (declarationKind (textAt 0 start)) ts := by
  unfold itemBody either
  simp only [hsemi, hif, h, Bool.false_eq_true, if_false]

theorem itemBody_statement {type item : Rule} (hsemi : sees ";" ts = false)
    (hif : sees "#if" ts = false) (h : declarationStart? ts = none) :
    itemBody type item ts = statement ts := by
  unfold itemBody either
  simp only [hsemi, hif, h, Bool.false_eq_true, if_false]

theorem statement_eq_ok {rest : List Token} {f : List Tree} (h : statement ts = .ok (f, rest)) :
    ∃ cs, f = [.node .statement cs] := by
  unfold statement require either at h
  split at h
  · obtain ⟨cs, -, rfl⟩ := node_eq_ok h
    exact ⟨cs, rfl⟩
  · cases h

section

variable {type type' item item' : Rule}
  (hends : ItemEnds all E Ex It Dn) (hlaw : Lawful type) (hconsumes : Consumes type)
  (htype : Rereads all E Anywhere Always type type') (hlaw' : Lawful item) (hconsumes' : Consumes item)
  (hitem : Rereads all E Before It item item')
include hends hlaw hconsumes htype hlaw' hconsumes' hitem

/-- **An item is read again.** Statements ask for more than the other items. -/
theorem itemBody_again {ts rest rest' : List Token} {f : List Tree} (htail : Token.Tail all ts)
    (hne : ts ≠ []) (h : itemBody type item ts = .ok (f, rest)) (hx : Exchanged E rest rest')
    (hdone : Dn rest rest') (hstatement : ∀ cs, f = [.node .statement cs] → It rest rest') :
    itemBody type' item' (forestTokens f ++ rest') = .ok (f, rest') := by
  have hkeeps := (lawful_itemBody hlaw hlaw').keeps h
  have hx' := (lawful_itemBody hlaw hlaw').keeps.exchanged h hx
  have hsame := (lawful_itemBody hlaw hlaw').keeps.sameHead h (consumes_itemBody hlaw hlaw' hne h) rest'
  have hsemi' := (ofHead_sees ";").same hsame
  have hif' := (ofHead_sees "#if").same hsame
  cases hsemi : sees ";" ts with
  | true =>
    rw [itemBody_semicolon hsemi] at h
    rw [itemBody_semicolon (hsemi'.trans hsemi)]
    exact (rereads_bump (ofHead_sees ";")).again htail hsemi h hx hdone
  | false =>
    rw [hsemi] at hsemi'
    cases hif : sees "#if" ts with
    | true =>
      rw [itemBody_ifConfig hsemi hif] at h
      rw [itemBody_ifConfig hsemi' (hif'.trans hif)]
      exact (rereads_ifConfig hends hlaw' hconsumes' hitem).again htail hne h hx hdone
    | false =>
      rw [hif] at hif'
      cases hstart : declarationStart? ts with
      | some start =>
        rw [itemBody_declaration hsemi hif hstart] at h
        obtain ⟨start', hstart', hagain⟩ :=
          declaration_again hends hlaw hconsumes htype hlaw' hconsumes' hitem htail hstart h hx hdone
        rw [itemBody_declaration hsemi' hif' hstart']
        exact hagain
      | none =>
        rw [itemBody_statement hsemi hif hstart] at h
        obtain ⟨cs, rfl⟩ := statement_eq_ok h
        have hfit := hstatement cs rfl
        have hfit' := hends.item_prepend (forestTokens [.node .statement cs]) hfit
        rw [hkeeps] at hfit'
        rw [itemBody_statement hsemi' hif' (hends.undeclared htail hx' hfit' hstart)]
        exact (rereads_statement hends).again htail ⟨hne, hsemi⟩ h hx hfit

/-- By `itemBody_again`. -/
theorem rereads_itemBody : Rereads all E Before It (itemBody type item) (itemBody type' item') where
  keeps := (lawful_itemBody hlaw hlaw').keeps
  again _ _ _ _ htail hne h hx hfit :=
    itemBody_again hends hlaw hconsumes htype hlaw' hconsumes' hitem htail hne h hx
      (hends.item_done hfit) fun _ _ => hfit

end

/-- **An item is read again where no question about how it goes on is answered otherwise**, also with
more levels to spare. -/
theorem rereads_item (hends : ItemEnds all E Ex It Dn) {m n : Nat} (h : m ≤ n) :
    Rereads all E Before It (item m) (item n) := by
  induction m generalizing n with
  | zero => exact rereads_tooDeep _
  | succ m ih =>
    cases n with
    | zero => exact absurd h (Nat.not_succ_le_zero m)
    | succ n =>
      have hle := Nat.le_of_succ_le_succ h
      exact rereads_itemBody hends (lawful_type m) (consumes_type m)
        (rereads_type hends.types hle) (lawful_item m)
        (consumes_item m) (ih hle)

end Rule

end SwiftOutline
