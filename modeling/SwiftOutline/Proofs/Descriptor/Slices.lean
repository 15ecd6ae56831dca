import SwiftOutline.Proofs.Descriptor.Rendered
import SwiftOutline.Proofs.Grammar.Brackets

/-!
# `Slices` — the texts of a descriptor lie in one another

The texts in a descriptor are cut from the source by different rules: the text of a node, of a node
behind its attributes, of a core, of the children up to a parenthesis. They still fit together. The bare
type ends the type text, a function type is a part of it that begins with the inputs and ends with the
output, and what is inside a descriptor stands in the right one of these texts, in order and without
overlap.

All of this is first said of tokens. A run of tokens has a text, and runs that stand one behind the other
have texts that do so too. The tokens between the two sides of a function type are effects and an arrow;
the error type behind a `throws` is skipped as a bracket group and never read as a type.
-/

namespace SwiftOutline

open SwiftOutline.Tree Token Rule List

/-! ## One behind the other -/

/-- The lists stand in the whole one behind the other: in this order, and no two of them overlap. -/
inductive Spread {α : Type} : List (List α) → List α → Prop where
  | nil (rest : List α) : Spread [] rest
  | cons (gap part : List α) {parts : List (List α)} {rest : List α} (h : Spread parts rest) :
      Spread (part :: parts) (gap ++ (part ++ rest))

namespace Spread

variable {α β γ : Type} {part : List α} {ps qs : List (List α)} {ts us : List α}

theorem append_left (front : List α) (h : Spread ps ts) : Spread ps (front ++ ts) := by
  cases h with
  | nil => exact .nil _
  | cons gap part h =>
    rw [← append_assoc]
    exact .cons (front ++ gap) part h

theorem append (h : Spread ps ts) (h' : Spread qs us) : Spread (ps ++ qs) (ts ++ us) := by
  induction h with
  | nil rest => exact h'.append_left rest
  | cons gap part _ ih =>
    rw [append_assoc, append_assoc]
    exact .cons gap part ih

theorem of_isInfix (h : Spread ps ts) (hin : ts <:+: us) : Spread ps us := by
  obtain ⟨before, after, rfl⟩ := hin
  have hback := h.append (.nil after)
  rw [append_nil] at hback
  rw [append_assoc]
  exact hback.append_left before

theorem singleton (h : part <:+: ts) : Spread [part] ts := by
  have hself := Spread.cons [] part (.nil [])
  rw [nil_append, append_nil] at hself
  exact hself.of_isInfix h

theorem isInfix_of_singleton (h : Spread [part] ts) : part <:+: ts := by
  cases h with
  | cons gap _ _ => exact ⟨gap, _, append_assoc ..⟩

/-- What is found in the members of a list, at most one thing in each, is found in order. -/
theorem filterMap {f : β → Option γ} {found : γ → List α} {whole : β → List α}
    (h : ∀ x y, f x = some y → found y <:+: whole x) (xs : List β) :
    Spread ((xs.filterMap f).map found) (xs.flatMap whole) := by
  induction xs with
  | nil => exact .nil []
  | cons x xs ih =>
    rw [flatMap_cons]
    cases hx : f x with
    | none =>
      rw [filterMap_cons_none hx]
      exact ih.append_left _
    | some y =>
      rw [filterMap_cons_some hx]
      exact (singleton (h x y hx)).append ih

end Spread

/-! ## The texts of runs of tokens -/

namespace Token

theorem toList_joined_append {ts : List Token} (h : ts ≠ []) (us : List Token) :
    (joined (ts ++ us)).toList = (joined ts).toList ++ layout us := by
  obtain ⟨t, ts, rfl⟩ := exists_cons_of_ne_nil h
  rw [cons_append, toList_joined, toList_joined, layout_append, append_assoc]

/-- The text of tokens ends the text with their gaps. -/
theorem exists_layout_eq (ts : List Token) : ∃ gap, layout ts = gap ++ (joined ts).toList := by
  cases ts with
  | nil => exact ⟨[], rfl⟩
  | cons t ts => exact ⟨t.lead.toList, by rw [layout_cons, toList_joined]⟩

theorem joined_isSuffix {ts us : List Token} (h : ts <:+ us) : (joined ts).toList <:+ (joined us).toList := by
  obtain ⟨front, rfl⟩ := h
  cases front with
  | nil => exact suffix_refl _
  | cons t front =>
    obtain ⟨gap, hgap⟩ := exists_layout_eq ts
    rw [toList_joined_append (cons_ne_nil t front), hgap, ← append_assoc]
    exact suffix_append _ _

end Token

theorem Spread.layout {ps : List (List Token)} {ts : List Token} (h : Spread ps ts) :
    Spread (ps.map fun p => (joined p).toList) (layout ts) := by
  induction h with
  | nil => exact .nil _
  | cons gap part _ ih =>
    obtain ⟨lead, hlead⟩ := exists_layout_eq part
    rw [layout_append, layout_append, hlead, append_assoc, ← append_assoc]
    exact .cons _ _ ih

/-- **Runs that stand one behind the other have texts that do.** -/
theorem Spread.joined {ps : List (List Token)} {ts : List Token} (h : Spread ps ts) :
    Spread (ps.map fun p => (joined p).toList) (joined ts).toList := by
  -- the text differs from the one with all gaps only in front of its first token
  cases h with
  | nil => exact .nil _
  | cons gap part h =>
    cases gap with
    | nil =>
      cases part with
      | nil => exact .cons [] [] h.joined
      | cons u us =>
        rw [nil_append, toList_joined_append (cons_ne_nil u us)]
        exact .cons [] _ h.layout
    | cons g gs =>
      have hrest := (Spread.cons [] part h).layout
      rw [nil_append] at hrest
      rw [toList_joined_append (cons_ne_nil g gs)]
      exact hrest.append_left _

theorem Token.joined_isInfix {ts us : List Token} (h : ts <:+: us) :
    (joined ts).toList <:+: (joined us).toList :=
  (Spread.singleton h).joined.isInfix_of_singleton

/-! ## The tokens of effects -/

/-- The tokens are effects. Behind a `throws` or `rethrows` may stand tokens of a certain form. -/
inductive EffectTokens (form : List Token → Prop) : List Token → Prop where
  | none : EffectTokens form []
  | word {t : Token} {ts : List Token} (ht : t.text ∈ ["async", "reasync", "throws", "rethrows"])
      (h : EffectTokens form ts) : EffectTokens form (t :: ts)
  | typed {t : Token} {group ts : List Token} (ht : t.text ∈ ["throws", "rethrows"]) (hgroup : form group)
      (h : EffectTokens form ts) : EffectTokens form (t :: (group ++ ts))

/-- A type in parentheses. -/
def IsErrorType (group : List Token) : Prop :=
  ∃ opening inner closing, group = opening :: (inner ++ [closing]) ∧ opening.text = "(" ∧ closing.text = ")" ∧
    (parseType (joined inner)).toOption.isSome = true

/-- All from a parenthesis to the bracket that closes it. That one may be of another kind, and so may be
the brackets in between. -/
def IsBracketed (group : List Token) : Prop :=
  ∃ opening inner closing, group = opening :: (inner ++ [closing]) ∧ opening.text = "(" ∧
    isCloser closing = true ∧
    Balanced inner

/-- What a group takes with one bracket more open is the last bracket, and before it all that closes the
others. -/
theorem exists_inner_of_takeGroup {depth : Nat} {ts : List Token} {p : List Token × List Token}
    (h : takeGroup (depth + 1) ts = some p) :
    ∃ inner closing, p.1 = inner ++ [closing] ∧ isCloser closing = true ∧ depthFrom depth inner = some 0 := by
  induction ts generalizing depth p with
  | nil => cases h
  | cons t ts ih =>
    rw [takeGroup] at h
    split at h
    · next hlast =>
      cases h
      rw [Bool.and_eq_true, beq_iff_eq] at hlast
      obtain ⟨hclose, hzero⟩ := hlast
      rw [depthAfter, not_isOpener_of_isCloser hclose, hclose] at hzero
      exact ⟨[], t, rfl, hclose, congrArg some hzero⟩
    · next hgoes =>
      obtain ⟨q, hq, rfl⟩ := Option.map_eq_some_iff.mp h
      -- the outermost bracket stays open, so all that is counted is one more than without it
      have hdepth : depthAfter (depth + 1) t = depthAfter depth t + 1 ∧ (isCloser t = true → depth ≠ 0) := by
        have hclosing := @not_isOpener_of_isCloser t
        unfold depthAfter at hgoes ⊢
        grind
      rw [hdepth.1] at hq
      obtain ⟨inner, closing, hrun, hclose, hinner⟩ := ih hq
      refine ⟨t :: inner, closing, ?_, hclose, (depthFrom_cons hdepth.2 inner).trans hinner⟩
      rw [hrun, cons_append]

namespace Rule

variable {ts rest : List Token} {f : List Tree} (hlex : ∀ t ∈ ts, t.Lexical)
include hlex

theorem isBracketed_of_takeGroup {p : List Token × List Token} (hsees : seesAdjacent "(" ts = true)
    (h : takeGroup 0 ts = some p) : IsBracketed p.1 := by
  obtain ⟨t, ts, rfl⟩ := (Lookahead.ofHead_seesAdjacent "(").exists_cons hsees
  have htext : t.text = "(" := beq_iff_eq.mp (Bool.and_eq_true_iff.mp hsees).1
  have hopen : isOpener t = true := (hlex t mem_cons_self).isOpener (by rw [htext]; rfl)
  rw [takeGroup, not_isCloser_of_isOpener hopen, Bool.false_and, if_neg Bool.false_ne_true, depthAfter,
    if_pos hopen] at h
  obtain ⟨q, hq, rfl⟩ := Option.map_eq_some_iff.mp h
  obtain ⟨inner, closing, hrun, hclose, hinner⟩ := exists_inner_of_takeGroup hq
  exact ⟨t, inner, closing, by rw [hrun], htext, hclose, hinner⟩

theorem effectTokens_of_effect {us : List Token} (hask : seesEffect ts = true) (h : effect ts = .ok (f, rest))
    (hus : EffectTokens IsBracketed us) : EffectTokens IsBracketed (forestTokens f ++ us) := by
  obtain ⟨t, ts, rfl⟩ := Lookahead.ofHead_seesEffect.exists_cons hask
  have hword : t.text ∈ ["async", "reasync", "throws", "rethrows"] :=
    contains_iff_mem.mp (Bool.and_eq_true_iff.mp hask).1
  unfold effect either at h
  split at h
  · next hthrows =>
    obtain ⟨f₁, tail, f₂, hbump, hgroup, rfl⟩ := seq_eq_ok h
    obtain ⟨rfl, rfl⟩ := bumps_eq_ok hbump
    rcases optional_eq_ok hgroup with ⟨hadjacent, hgroup⟩ | ⟨-, rfl, -⟩
    · obtain ⟨run, hrun, rfl⟩ := group_eq_ok hgroup
      have hbracketed := isBracketed_of_takeGroup (fun u hu =>
          hlex u (mem_cons_of_mem t hu)) hadjacent hrun
      rw [forestTokens_append, forestTokens_map_token, forestTokens_map_token, append_assoc]
      show EffectTokens IsBracketed (t :: (run ++ us))
      exact .typed (by simpa [seesThrows, sees] using hthrows) hbracketed hus
    · exact .word hword hus
  · cases h
    exact .word hword hus

/-- **What is read as effects** are the words for effects, and groups behind some of them. -/
theorem effectTokens_of_optional (h : optional seesEffect effectSpecifiers ts = .ok (f, rest)) :
    EffectTokens IsBracketed (forestTokens f) := by
  rcases optional_eq_ok h with ⟨-, h⟩ | ⟨-, rfl, -⟩
  · obtain ⟨cs, hcs, rfl⟩ := node_eq_ok h
    rw [forestTokens_singleton, tokens_node]
    refine many_induction (motive := fun ts f _ => (∀ t ∈ ts, t.Lexical) →
      EffectTokens IsBracketed (forestTokens f))
      ?_ ?_ ?_ hcs hlex
    · intro ts _ _
      exact .none
    · intro ts f rest hask hok _ hlex
      have hlast := effectTokens_of_effect hlex hask hok .none
      rwa [append_nil] at hlast
    · intro ts f mid f' rest hask hok _ _ ih hlex
      rw [forestTokens_append]
      exact effectTokens_of_effect hlex hask hok (ih fun t ht =>
        hlex t (lawful_effect.keeps.mem_of_rest hok ht))
  · exact .none

end Rule

/-! ## The texts of a descriptor -/

/-- The texts of the descriptors stand in the text one behind the other. -/
def Descriptor.SpreadIn (ds : List Descriptor) (text : String) : Prop :=
  Spread (ds.map fun d => d.typeText.toList) text.toList

/-- The text of a function type begins with its inputs and ends with its output. Its tokens are those of
the inputs, effects, an arrow, and those of the output. -/
structure ClosureTraits.Sliced (form : List Token → Prop) (traits : ClosureTraits) : Prop where
  text : ∃ between, traits.declarationText = traits.inputType ++ between ++ traits.outputType
  tokens : ∃ ins effects arrow outs, tokenize traits.declarationText =
    .ok (ins ++ (effects ++ arrow :: outs)) ∧
    joined ins = traits.inputType ∧ joined outs = traits.outputType ∧
    EffectTokens form effects ∧ arrow.text = "->"

/-- What is inside a descriptor has its texts in those of the descriptor. -/
def Descriptor.PartsSliced (form : List Token → Prop) : Descriptor → Prop
  | standard fields parameters => SpreadIn parameters fields.typeText
  | tuple fields arguments => SpreadIn arguments fields.typeText
  | closure fields inputs outputs traits =>
    traits.declarationText.toList <:+: fields.typeText.toList ∧ traits.Sliced form ∧
      SpreadIn inputs traits.inputType ∧ SpreadIn outputs traits.outputType

/-- How the texts of a descriptor lie in one another. -/
structure Descriptor.Sliced (form : List Token → Prop) (d : Descriptor) : Prop where
  bareType : d.fields.bareType.toList <:+ d.typeText.toList
  parts : d.PartsSliced form

namespace Place

variable {source : String} {p q : Place}

theorem spreadIn_of_tokens {qs : List Place} {ts : List Token}
    (h : Spread (qs.map fun q => q.tree.tokens) ts) : Descriptor.SpreadIn (qs.map decompose) (joined ts) := by
  have htext : (fun d => d.typeText.toList) ∘ decompose = (fun p => (joined p).toList) ∘ fun q =>
      q.tree.tokens := by
    funext q
    exact congrArg (·.typeText.toList) (fields_decompose q)
  rw [Descriptor.SpreadIn, map_map, htext, ← map_map]
  exact h.joined

/-- The types of the entries of a list stand in it one behind the other. -/
theorem spread_entries (p : Place) :
    Spread ((p.childNodes.filterMap childType?).map fun q => q.tree.tokens) p.tree.tokens := by
  cases htree : p.tree with
  | token t =>
    rw [childNodes, htree]
    exact .nil _
  | node k cs =>
    rw [childNodes, htree, Tree.childNodes, children, filterMap_map, filterMap_filter, tokens_node,
      forestTokens_eq_flatMap]
    refine Spread.filterMap (fun c q hq => ?_) cs
    split at hq
    · exact (contains_of_childType? hq).tokens_isInfix
    · cases hq

theorem spread_elementTypes (p : Place) :
    Spread (p.elementTypes.map fun q => q.tree.tokens) p.tree.tokens := by
  rw [elementTypes]
  split
  · next list hlist => exact (spread_entries list).of_isInfix (contains_of_child? hlist).tokens_isInfix
  · exact .nil _

theorem spread_argumentTypes (p : Place) :
    Spread (p.argumentTypes.map fun q => q.tree.tokens) p.tree.tokens := by
  rw [argumentTypes]
  split
  · next clause hclause =>
      exact (spread_entries clause).of_isInfix (contains_of_child? hclause).tokens_isInfix
  · exact .nil _

/-- The outputs stand in the return type, which is the only one or lists them. -/
theorem spreadIn_outputTypes (result : Option Place) :
    Descriptor.SpreadIn ((outputTypes result).map decompose) (outputText result) := by
  cases result with
  | none => exact .nil _
  | some r =>
    show Descriptor.SpreadIn _ (joined r.tree.tokens)
    refine spreadIn_of_tokens ?_
    rw [outputTypes]
    split
    · exact .nil _
    · split
      · exact spread_elementTypes r
      · exact .singleton (infix_refl _)

/-- The type behind the attributes is the last child. -/
theorem tokens_withoutAttributes_isSuffix (h : p.tree.Accepted) :
    p.withoutAttributes.tree.tokens <:+ p.tree.tokens := by
  fun_induction withoutAttributes p with
  | case1 p q hq hkind ih =>
    refine (ih (h.contains (contains_of_childType? hq))).trans ?_
    obtain ⟨c, hc, rfl⟩ := Option.map_eq_some_iff.mp hq
    obtain ⟨all, cs, htree, hlaid⟩ := h.here (beq_iff_eq.mp hkind)
    obtain ⟨u, hu⟩ := (fitsSchema_of_laidOut hlaid).oneType rfl
    obtain ⟨front, _, rfl, -, ⟨j, hj, ds, rfl⟩⟩ := hlaid.1
    have htypes : ∀ k ∈ typeKinds, k.isType = true := by decide
    have hlast : Tree.node j ds ∈ (front ++ [Tree.node j ds]).filter Tree.isType :=
      mem_filter.mpr ⟨mem_append_right _ (mem_singleton_self _), htypes j hj⟩
    rw [htree, Tree.childType?, children, ← List.head?_filter, hu] at hc
    rw [hu] at hlast
    cases hc
    cases mem_singleton.mp hlast
    rw [htree, tokens_node, forestTokens_append, forestTokens_singleton]
    exact suffix_append _ _
  | case2 => exact suffix_refl _
  | case3 => exact suffix_refl _

/-- **The two sides of a function type** and what stands between them. -/
theorem exists_sides (hp : p.tree.IsPart source) (hkind : p.kind? = some .functionType) :
    ∃ ins effects arrow result, p.childType? = some result ∧ ins ≠ [] ∧
      p.tree.tokens = ins ++ (effects ++ arrow :: result.tree.tokens) ∧ p.inputText = joined ins ∧
      (∀ list, p.child? .tupleTypeElementList = some list → list.tree.tokens <:+: ins) ∧
      EffectTokens IsBracketed effects ∧ arrow.text = "->" := by
  obtain ⟨u, A⟩ := p
  cases u with
  | token t => cases hkind
  | node k cs =>
    cases hkind
    obtain ⟨opening, list, closing, effects, arrow, result, rfl, hopen, hclose, harrow, htype, -,
      hother, us, left, hlex, heffects⟩ := exists_signature hp.every.here
    have heffects := effectTokens_of_optional hlex heffects
    have hresult : (effects ++ [.token arrow, result]).find? Tree.isType = some result := by
      rw [List.find?_append, List.find?_eq_none.mpr fun u hu => Bool.eq_false_iff.mp (hother u hu),
        Option.none_or, List.find?_cons_of_neg (by simp [Tree.isType, Tree.kind?]),
          List.find?_cons_of_pos htype]
    refine ⟨opening :: (forestTokens list ++ [closing]), forestTokens effects, arrow, _,
      congrArg (Option.map (down ⟨_, A⟩)) hresult, cons_ne_nil _ _, ?_, ?_, ?_, heffects, harrow⟩
    · simp [tokens_node, tokens_token, down]
    · have hskip : ("(" == ")") = false := by decide
      simp [inputText, hasToken, childTokens, children, token?, hopen, hclose, hskip,
        tokens_node, tokens_token]
    · intro l hl
      cases hl
      exact ⟨[opening], [closing], by simp [down, tokens_node]⟩

/-- The inputs stand between the parentheses. -/
theorem spreadIn_inputTypes (hp : p.tree.IsPart source) (hkind : p.kind? = some .functionType) :
    Descriptor.SpreadIn (p.inputTypes.map decompose) p.inputText := by
  obtain ⟨ins, effects, arrow, result, -, -, -, hinput, hlist, -⟩ := exists_sides hp hkind
  rw [hinput]
  refine spreadIn_of_tokens ?_
  rw [inputTypes, elementTypes]
  split
  · exact .nil _
  · split
    · next list hchild => exact (spread_entries list).of_isInfix (hlist list hchild)
    · exact .nil _

/-- The tokens of the text of a function type are those of the type, so they have its two sides. -/
theorem tokenize_functionType (hp : p.tree.IsPart source) (hkind : p.kind? = some .functionType) :
    ∃ ins effects arrow outs, tokenize p.text = .ok (ins ++ (effects ++ arrow :: outs)) ∧
      joined ins = p.inputText ∧ joined outs = outputText p.childType? ∧
      EffectTokens IsBracketed effects ∧ arrow.text = "->" := by
  obtain ⟨u, A⟩ := p
  cases u with
  | token t => cases hkind
  | node k cs =>
    cases hkind
    obtain ⟨t, ts, htokens⟩ := exists_cons_of_ne_nil (tokens_ne_nil_of_functionType hp.every.here)
    obtain ⟨tokens, htokenize, hin⟩ := hp.tokens
    have hg : Token.Faithful (excerpt t) (node .functionType cs).tokens := by
      rw [htokens]
      exact faithful_excerpt (not_mem_of_isInfix htokenize (htokens ▸ hin))
    -- the text is read as the same type, now with the tokens of the text
    have hparse := parseType_text hp htokens
    have hsame : (closureTraits default ((root (.node .functionType cs)).moved (excerpt t) [])).SameType
        (closureTraits default ⟨.node .functionType cs, A⟩) := sameType_moved hg default default
    have hpart := (isPart_of_parseType hparse).contains (.child .self (mem_singleton_self _))
    obtain ⟨ins, effects, arrow, result, hresult, -, hsides, hinput, -, heffects, harrow⟩ :=
      exists_sides (p := (root (.node .functionType cs)).moved (excerpt t) []) hpart rfl
    have houtput := hsame.outputType
    rw [closureTraits, hresult] at houtput
    refine ⟨ins, effects, arrow, result.tree.tokens, ?_, hinput.symm.trans hsame.inputType,
      houtput, heffects, harrow⟩
    have htext := (tokens_of_parseWith lawful_soleType rest_of_soleType hparse).1
    rw [tokens_node, forestTokens_singleton] at htext
    exact htext.trans (congrArg _ hsides)

theorem sliced_closureTraits (hp : p.tree.IsPart source) (hkind : p.kind? = some .functionType)
    (fields : Fields) : (closureTraits fields p).Sliced IsBracketed where
  text := by
    obtain ⟨ins, effects, arrow, result, hresult, hne, htokens, hinput, -⟩ := exists_sides hp hkind
    obtain ⟨gap, hgap⟩ := exists_layout_eq result.tree.tokens
    refine ⟨.ofList (layout effects ++ (layout [arrow] ++ gap)), String.toList_injective ?_⟩
    show (joined p.tree.tokens).toList = _
    rw [closureTraits, hinput, hresult, htokens, toList_joined_append hne, ← singleton_append,
      layout_append, layout_append, hgap]
    simp [outputText, text, Tree.text]
  tokens := tokenize_functionType hp hkind

theorem partsSliced_decompose (hp : p.tree.IsPart source) : p.decompose.PartsSliced IsBracketed := by
  have hin := (contains_core_peel p).tokens_isInfix
  have hcore := hp.contains (contains_core_peel p)
  have hnone : Descriptor.SpreadIn [] p.text := .nil _
  rw [decompose_eq]
  split
  · exact hnone
  split
  · next hkind =>
    exact ⟨Token.joined_isInfix hin, sliced_closureTraits hcore hkind _, spreadIn_inputTypes hcore hkind,
      spreadIn_outputTypes _⟩
  · exact spreadIn_of_tokens ((spread_elementTypes _).of_isInfix hin)
  · rw [Descriptor.PartsSliced]
    split
    · exact spreadIn_of_tokens ((spread_argumentTypes _).of_isInfix hin)
    · exact hnone
  · exact hnone

/-- **The texts of a descriptor lie in one another**, if what it describes was read from a source. -/
theorem sliced_decompose (hp : p.tree.IsPart source) (haccepted : p.tree.Accepted) :
    p.decompose.Sliced IsBracketed where
  bareType := by
    rw [Descriptor.typeText, fields_decompose]
    exact joined_isSuffix (tokens_withoutAttributes_isSuffix haccepted)
  parts := partsSliced_decompose hp

end Place

/-- **What follows `throws` need not be a type in parentheses.** -/
theorem error_type_unread : ¬ ∀ text d e, decomposeType text = .ok d → d.Holds e → e.Sliced IsErrorType := by
  intro hall
  have hok : (decomposeType "() throws(E] -> A").toOption =
      some (.closure (.ofType "() throws(E] -> A") [] [.ofType "A"]
        { isVoidInput := true, isThrowing := true, inputType := "()", outputType := "A"
          declarationText := "() throws(E] -> A" }) := by
    decide +kernel
  obtain ⟨-, htraits, -⟩ := (hall _ _ _ (eq_ok_of_toOption hok) (.self _)).parts
  obtain ⟨ins, effects, arrow, outs, htokens, hins, -, heffects, harrow⟩ := htraits.tokens
  have hlist : (tokenize "() throws(E] -> A").toOption.any (fun ts => ts.length < 9 &&
      (List.range 9).all (fun n => Token.joined (ts.take n) != "()" || n == 2) &&
      (ts.drop 2).map Token.text == ["throws", "(", "E", "]", "->", "A"]) = true := by
    decide +kernel
  rw [htokens, Except.toOption, Option.any_some, Bool.and_eq_true, Bool.and_eq_true,
    decide_eq_true_eq, all_eq_true, beq_iff_eq] at hlist
  obtain ⟨⟨hlength, hfront⟩, hbehind⟩ := hlist
  -- only the first two tokens have the text of the inputs
  have htwo : ins.length = 2 := by
    rw [length_append] at hlength
    have hn := hfront ins.length (mem_range.mpr (by omega))
    rw [take_left, hins, Bool.or_eq_true, beq_iff_eq] at hn
    exact hn.resolve_left (by decide)
  rw [drop_left' htwo] at hbehind
  cases heffects with
  | none =>
    rw [nil_append, List.map_cons, harrow] at hbehind
    exact absurd (List.cons.inj hbehind).1 (by decide)
  | word _ h =>
    cases h with
    | none =>
      rw [cons_append, nil_append, List.map_cons, List.map_cons, harrow] at hbehind
      exact absurd (List.cons.inj (List.cons.inj hbehind).2).1 (by decide)
    | word ht _ | typed ht _ _ =>
      simp only [cons_append, List.map_cons, List.cons.injEq] at hbehind
      rw [hbehind.2.1] at ht
      revert ht
      decide
  | typed _ hgroup _ =>
    obtain ⟨opening, inner, closing, rfl, -, hclose, -⟩ := hgroup
    have hmem : ")" ∈ ["throws", "(", "E", "]", "->", "A"] := by
      rw [← hbehind, ← hclose]
      exact mem_map_of_mem (by simp)
    revert hmem
    decide

/-- **The texts of every descriptor lie in one another.** Take any descriptor that occurs, at any depth,
in the descriptor of a type. Its bare type ends its type text. The text of a closure is a part of the
type text; it begins with the inputs and ends with the output, and the tokens between those are effects
and one arrow, where the group behind a `throws` runs to the bracket that closes it. The texts of what is
inside stand in order and without overlap: inputs in the text of the inputs, outputs in that of the
output, and the elements of a tuple and the arguments of a `Result` in the type text. -/
theorem texts_sliced (text : String) (d e : Descriptor) (h : decomposeType text = .ok d) (he : d.Holds e) :
    e.Sliced IsBracketed := by
  obtain ⟨tree, hparse, ⟨p, hp, rfl⟩ | ⟨typeText, rfl⟩⟩ := parseType_of_decomposeType h
  · obtain ⟨q, hq, rfl⟩ := Place.exists_place_of_holds he
    have hin := hp.trans hq
    exact Place.sliced_decompose ((isPart_of_parseType hparse).contains hin)
      ((accepted_of_parse (.inr hparse)).contains hin)
  · cases eq_ofType_of_holds he
    exact ⟨suffix_refl _, .nil _⟩

/-- An optional closure behind an attribute, with brackets of two kinds around its error type, and the
`Result` among its outputs. -/
theorem texts_sliced_nested : ∃ d e,
    decomposeType "@A ((x: B, C) throws(E[F\x7d) -> (D, Result<G, [H]>))?" = .ok d ∧ d.Holds e ∧
      d.variant = "closure" ∧ d.fields.bareType ≠ d.typeText ∧ d.Sliced IsBracketed ∧
      e.parts.map Descriptor.typeText = ["G", "[H]"] ∧ e.Sliced IsBracketed := by
  obtain ⟨d, hd, e, he, hfacts⟩ := exists_ok_of_test
    (x := decomposeType "@A ((x: B, C) throws(E[F\x7d) -> (D, Result<G, [H]>))?")
      (P := fun d => ∃ e ∈ d.parts, (d.variant = "closure" ∧ d.fields.bareType ≠ d.typeText) ∧
        e.parts.map Descriptor.typeText = ["G", "[H]"])
    (by decide +kernel)
  have hpart : d.Holds e := .part he (.self e)
  exact ⟨d, e, hd, hpart, hfacts.1.1, hfacts.1.2, texts_sliced _ _ _ hd (.self d), hfacts.2,
    texts_sliced _ _ _ hd hpart⟩

end SwiftOutline
