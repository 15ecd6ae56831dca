import SwiftOutline.Proofs.Descriptor.Moved
import SwiftOutline.Proofs.Grammar.Written

/-!
# `ReadBack` — a function type that was written is read back

The tokens of parameters that were written out are read by the rule for the elements of a tuple. Each
type is read as it was before, since it sees neither the gap in front of it nor what stands behind it,
and each default value ends at the comma or the parenthesis behind it, as it did before.
-/

namespace SwiftOutline

open Token List

namespace Rule

open Lookahead

/-! ## Rules that read what is written -/

/-- Reads an element of a list that stands inside no other type. -/
def outerElement : Rule := tupleElement (type (nestingLimit - 1)) .tupleTypeElement

variable {t : Token} {ts rest : List Token}

/-- **A rule that does not see the gap in front of its input reads what is written.** -/
theorem read_written {r : Rule} (hblind : HeadBlind r) (hlaw : Lawful r) {f : List Tree}
    (hfirst : t ∉ ts) (h : r (t :: ts) = .ok (f, rest)) (lead : String) :
    r (written lead (t :: ts)) =
      .ok (f.map (Tree.relabel (writing lead t)), rest.map (writing lead t)) := by
  have hself : (if t = t then t.led lead else t) = t.led lead := if_pos rfl
  have hregap : Token.Regap (fun u => if u = t then u.led lead else u) t ts := by
    refine ⟨(congrArg kind hself).trans rfl, (congrArg text hself).trans rfl, fun u hu => if_neg ?_⟩
    rintro rfl
    exact hfirst hu
  -- first the gap is changed, then the places are left out
  have hgap := hblind hregap h
  have hplaces := hlaw.natural unseen_unplaced ((if t = t then t.led lead else t) :: ts)
  rw [hgap, relabelOutcome_ok, if_pos rfl, Tree.relabelForest_relabel, map_map] at hplaces
  exact hplaces

theorem headBlind_elementLabels : HeadBlind elementLabels :=
  HeadBlind.either ((headBlind_isWordAt 0).and (headBlind_textAt 1 (· == ":"))) (headBlind_bumps 2)
    ((headBlind_bumps 3).optional
      (((headBlind_isWordAt 0).and (headBlind_isWordAt 1)).and (headBlind_textAt 2 (· == ":"))))

/-- A default value is a run again, before the token that ended it. -/
theorem takeRun_written {last : Token} (hfirst : t ∉ ts ++ [last])
    (hread : exprRun (t :: (ts ++ [last])) = .ok ((t :: ts).map .token, [last])) (lead : String) :
    takeRun true false 0 (written lead (t :: ts) ++ [last.unplaced]) =
      (written lead (t :: ts), [last.unplaced]) := by
  have hagain := read_written (headBlind_run true) lawful_exprRun hfirst hread lead
  have hsplit : written lead (t :: (ts ++ [last])) = written lead (t :: ts) ++ [last.unplaced] := by
    rw [written, ← cons_append, map_append]
    rfl
  have hlast : writing lead t last = last.unplaced := by
    refine writing_of_ne ?_
    rintro rfl
    exact hfirst (mem_append_right ts (mem_singleton_self last))
  have hmap : ((t :: ts).map Tree.token).map (Tree.relabel (writing lead t)) =
      (written lead (t :: ts)).map .token := by
    rw [← map_writing fun hmem => hfirst (mem_append_left [last] hmem), map_map, map_map]
    exact map_congr_left fun u _ => Tree.relabel_token _ u
  rw [hsplit, hmap, map_singleton, hlast] at hagain
  have hpair := Except.ok.inj hagain
  have hrun := (map_inj_right fun _ _ h => Tree.token.inj h).mp (Prod.mk.inj hpair).1
  exact Prod.ext hrun (Prod.mk.inj hpair).2

/-- A closing parenthesis begins no type. -/
theorem text_ne_of_type {n : Nat} {f : List Tree} (hlex : t.Lexical)
    (h : type n (t :: ts) = .ok (f, rest)) : t.text ≠ ")" := by
  intro htext
  have hkind : t.kind = .punct := hlex.kind_of_text htext rfl
  have hother (text : String) : sees text (t :: ts) = (")" == text) := by
    rw [← htext]
    rfl
  have hat : seesKind .atSign (t :: ts) = false := by
    show (t.kind == .atSign) = false
    rw [hkind]
    rfl
  have hword : seesWord (t :: ts) = false := by
    show t.isWord = false
    rw [isWord, hkind]
    rfl
  have hspecifier : seesTypeSpecifier (t :: ts) = false := by
    rw [seesTypeSpecifier, hword, Bool.and_false, Bool.false_and]
  have hsome : seesSomeOrAny (t :: ts) = false := by
    rw [seesSomeOrAny, hother, hother]
    rfl
  cases n with
  | zero => cases h
  | succ n =>
    obtain ⟨f₁, mid, h₁, -⟩ := wrapping_eq_ok (show wrapping (simpleType (type n)) _ _ = _ from h)
    simp only [simpleType, either, hat, hspecifier, hsome, hother "~", Bool.or_self,
      Bool.false_eq_true, if_false] at h₁
    obtain ⟨f₂, mid', h₂, -⟩ := wrapping_eq_ok h₁
    -- what is left is a name, and a parenthesis is no word
    simp only [primaryType, either, require, hother "(", hother "[", hword,
      Bool.false_eq_true, if_false] at h₂
    cases h₂

/-- `Void` is a type. -/
theorem type_void (n : Nat) : type (n + 1) [void] = .ok ([.node .identifierType [.token void]], []) := by
  have hprimary : primaryType (type n) [void] = .ok ([.node .identifierType [.token void]], []) := rfl
  exact wrapping_ok (wrapping_ok hprimary (wrappings_of_none rfl _)) (wrappings_of_none rfl _)

/-- Parentheses with an arrow behind them are a function type. -/
theorem parenType_of_arrow {inner : Rule} {es : List Tree} {u : Tree}
    (hlist : elements (tupleElement inner .tupleTypeElement) ts = .ok (es, closeParen :: arrow :: rest))
    (hresult : inner rest = .ok ([u], [])) :
    parenType inner (openParen :: ts) = .ok ([.node .functionType [.token openParen,
      .node .tupleTypeElementList es, .token closeParen, .token arrow, u]], []) := by
  have hinputs : (bump ++ node .tupleTypeElementList (elements (tupleElement inner .tupleTypeElement)) ++
      bump : Rule)
      (openParen :: ts) = .ok (_, arrow :: rest) :=
    seq_ok (seq_ok (bump_cons openParen ts) (node_ok hlist)) (bump_cons closeParen _)
  have harrow : seesFunctionArrow (arrow :: rest) = true := by
    rw [OffEffect.seesFunctionArrow (show OffEffect (arrow :: rest) from rfl)]
    rfl
  have hrest : (optional seesEffect effectSpecifiers ++ bump ++ inner : Rule) (arrow :: rest) =
      .ok ([] ++ [.token arrow] ++ [u], []) :=
    seq_ok (seq_ok (optional_of_no rfl) (bump_cons arrow rest)) hresult
  rw [parenType, closing_ok hinputs (by rw [if_pos harrow]; exact hrest), if_pos harrow]
  rfl

end Rule

/-- The token ends an element of a list. -/
def Token.EndsElement (t : Token) : Prop := t.kind = .punct ∧ (t.text = "," ∨ t.text = ")")

theorem Rule.reads_separator {stop : Token} (hstop : stop.EndsElement) (more : List Token) :
    ∃ separator separated, either (sees ",") bump (require (sees ")") "',' or ')'" nothing) (stop :: more) =
      .ok (separator.map .token, if stop.text = "," then more else stop :: more) ∧
        Marked separated "," separator := by
  have hsees (text : String) : sees text (stop :: more) = (stop.text == text) := rfl
  unfold Rule.either Rule.require Rule.either
  rw [hsees, hsees]
  rcases hstop.2 with htext | htext
  · rw [htext]
    exact ⟨[stop], true, rfl, stop, rfl, htext⟩
  · rw [htext]
    exact ⟨[], false, rfl, rfl⟩

namespace Parameter

open Rule Lookahead

variable {all : List Token}

/-- The element says what the parameter does, and has its type. -/
def Says (p : Parameter all) (e : Tree) : Prop :=
  e.elementLabels = p.labels ∧ ∃ u, e.childType? = some u ∧ u.text = joined p.type

section

variable {source : String} (htokenize : tokenize source = .ok all) (p : Parameter all)

/-- The labels are read from their tokens. -/
theorem reads_labelTokens (hlex : ∀ t ∈ all, t.Lexical) {ts : List Token} (lead : String)
    (hnone : p.names = [] → elementLabels ts = .ok ([], ts)) :
    ∃ names labels, elementLabels (p.labelTokens lead ++ ts) = .ok (labels.map .token, ts) ∧
      Labelling names labels ∧
      names.map text = p.names.map text := by
  have hlength := p.length_names
  have hwords : ∀ w ∈ p.names, w.Lexical ∧ w.isWord = true := fun w hw =>
    ⟨hlex w (p.isWord w hw).1, (p.isWord w hw).2⟩
  unfold labelTokens
  match p.names, hlength, hwords, hnone with
  | [], _, _, hnone => exact ⟨[], [], hnone rfl, .none, rfl⟩
  | [w], _, hwords, _ =>
    obtain ⟨hw, hword⟩ := hwords w (by simp)
    refine ⟨[(w.led lead).unplaced], [(w.led lead).unplaced, colon], ?_, .named nofun ?_ rfl, rfl⟩
    · show (if w.isWord && true then bumps 2 ((w.led lead).unplaced :: colon :: ts) else _) = _
      rw [hword]
      rfl
    · intro v hv
      cases mem_singleton.mp hv
      exact ⟨hw.of_eq rfl rfl, hword⟩
  | [w, v], _, hwords, _ =>
    obtain ⟨hw, hword⟩ := hwords w (by simp)
    obtain ⟨hv, hword'⟩ := hwords v (by simp)
    -- the second name is no colon, so these are not the labels of an element with one name
    have hcolon : (v.text == ":") = false := beq_eq_false_iff_ne.mpr (text_ne_of_isWord hv hword' rfl)
    refine ⟨[(w.led lead).unplaced, (v.led " ").unplaced],
      [(w.led lead).unplaced, (v.led " ").unplaced, colon], ?_, .named nofun ?_ rfl, rfl⟩
    · show (if w.isWord && v.text == ":" then _ else if w.isWord && v.isWord && true then
        bumps 3 ((w.led lead).unplaced :: (v.led " ").unplaced :: colon :: ts) else _) = _
      rw [hword, hword', hcolon]
      rfl
    · intro x hx
      rcases mem_cons.mp hx with rfl | hx
      · exact ⟨hw.of_eq rfl rfl, hword⟩
      · cases mem_singleton.mp hx
        exact ⟨hv.of_eq rfl rfl, hword'⟩

include htokenize

theorem reads_typeTokens {more : List Token} (hmore : Stops more) (lead : String) :
    ∃ u, Rule.type (nestingLimit - 1) (p.typeTokens lead ++ more) = .ok ([u], more) ∧ u.isType = true ∧
      u.tokens = p.typeTokens lead ∧
      (p.names = [] → elementLabels (p.typeTokens lead ++ more) = .ok ([], p.typeTokens lead ++ more)) := by
  have hlex := lexical_of_tokensFrom htokenize
  have hin := p.type_isInfix
  obtain ⟨u, hu⟩ := p.type_read
  have hlabels := p.type_unlabelled
  unfold typeTokens
  generalize (if p.names.isEmpty then lead else " ") = gap
  generalize hts : p.type = ts at hu hin hlabels ⊢
  obtain ⟨t, ts, rfl⟩ := exists_cons_of_ne_nil (hts ▸ p.type_ne_nil)
  have hfirst := not_mem_of_isInfix htokenize hin
  have hwritten : ∀ v ∈ written gap (t :: ts), v.Lexical :=
    lexical_written fun v hv => hlex v (hin.subset hv)
  -- read behind another gap, and then in front of more tokens
  have hread := read_written (headBlind_type _) (lawful_type _) hfirst hu gap
  have hagain := hmore.type hwritten hread
  refine ⟨_, hagain, ?_, ?_, fun hnil => ?_⟩
  · rw [Tree.isType_relabel]
    obtain ⟨k, ds, hf, hk⟩ :=
      exists_isType_of_type (Nat.sub_le nestingLimit 1) (fun v hv => hlex v (hin.subset hv)) hu
    cases hf
    exact hk
  · have hkeeps := (lawful_type _).keeps hread
    rwa [map_singleton, Tree.forestTokens_singleton, map_nil, append_nil] at hkeeps
  · have hnone := read_written headBlind_elementLabels lawful_elementLabels hfirst (hlabels hnil) gap
    rw [map_writing hfirst] at hnone
    exact hmore.elementLabels hwritten hnone

variable {stop : Token}

/-- The default value is read up to the token that ends the parameter. -/
theorem reads_value {v : List Token} (hv : p.value = some v) (hstop : stop.EndsElement) (more : List Token) :
    expr (written " " v ++ stop :: more) =
      .ok ([.node .expr ((written " " v).map .token)], stop :: more) := by
  obtain ⟨hne, last, hin, hlast, hread⟩ := p.value_read v hv
  obtain ⟨t, ts, rfl⟩ := exists_cons_of_ne_nil hne
  have hrun := takeRun_written (not_mem_of_isInfix htokenize hin) hread " "
  have hagain : exprRun (written " " (t :: ts) ++ stop :: more) =
      .ok ((written " " (t :: ts)).map .token, stop :: more) := by
    -- the run ended before a comma or a parenthesis, and does so before this one
    have hbefore : takeRun true false 0 (written " " (t :: ts) ++ stop :: more) = (_, stop :: more) :=
      takeRun_before hrun hlast hstop.1 hstop.2 nofun
    exact run_ok (congrArg Except.ok hbefore)
  refine node_ok (nonempty_ok hagain ?_ _)
  rw [length_append]
  exact Nat.lt_add_of_pos_left (Nat.succ_pos ((ts.map unplaced).length))

theorem reads_valueTokens (hstop : stop.EndsElement) (more : List Token) : ∃ initializer value,
      optional (sees "=") initializerClause (p.valueTokens ++ stop :: more) =
        .ok (initializer, stop :: more) ∧
      Initialized value initializer ∧ value.map joined = p.value.map joined := by
  unfold valueTokens
  cases hv : p.value with
  | none =>
    have hequals : sees "=" (stop :: more) = false := by
      show (stop.text == "=") = false
      rcases hstop.2 with htext | htext <;> rw [htext] <;> rfl
    exact ⟨[], none, optional_of_no hequals, rfl, rfl⟩
  | some v =>
    refine ⟨_, some (written " " v), node_ok (seq_ok rfl (reads_value htokenize p hv hstop more)), ⟨_, rfl⟩,
      ?_⟩
    rw [Option.map_some, Option.map_some, joined_written]

/-- What follows the type is read up to the token that ends the parameter, with a comma. -/
theorem reads_restTokens (hstop : stop.EndsElement) (more : List Token) :
    ∃ dots initializer separator value separated, elementRest (p.restTokens ++ stop :: more) =
        .ok (dots.map .token ++ initializer ++ separator.map .token,
          if stop.text = "," then more else stop :: more) ∧
      Marked p.variadic "..." dots ∧ Initialized value initializer ∧ Marked separated "," separator ∧
      value.map joined = p.value.map joined := by
  obtain ⟨separator, separated, hend, hseparator⟩ := reads_separator hstop more
  obtain ⟨initializer, value, hvalue, hinitializer, hjoined⟩ := reads_valueTokens htokenize p hstop more
  rw [restTokens, append_assoc]
  cases p.variadic with
  | true =>
    exact ⟨[dots], initializer, separator, value, separated, seq_ok (seq_ok rfl hvalue) hend, ⟨_, rfl, rfl⟩,
      hinitializer, hseparator, hjoined⟩
  | false =>
    have hellipsis : seesKind .ellipsis (p.valueTokens ++ stop :: more) = false := by
      unfold valueTokens
      cases p.value with
      | none => exact beq_eq_false_iff_ne.mpr (by rw [hstop.1]; decide)
      | some v => rfl
    exact ⟨[], initializer, separator, value, separated,
      seq_ok (seq_ok (optional_of_no hellipsis) hvalue) hend, rfl, hinitializer, hseparator, hjoined⟩

omit htokenize in
/-- No type goes on with what follows it in a parameter. -/
theorem stops_restTokens (hstop : stop.EndsElement) (more : List Token) :
    Stops (p.restTokens ++ stop :: more) := by
  have hends : ∀ {t : Token} {ts : List Token}, t.text ∈ [",", ")", "=", "..."] →
      t.kind ∈ [.punct, .ellipsis] →
      Stops (t :: ts) := fun {t ts} htext hkind =>
    ⟨t, ts, rfl, mem_append_left ["#endif"] htext, mem_append_left [TokenKind.poundDirective] hkind⟩
  unfold restTokens valueTokens
  cases p.variadic with
  | true => exact hends (by decide) (by decide)
  | false =>
    cases p.value with
    | none =>
      refine hends ?_ ?_
      · rcases hstop.2 with htext | htext <;> rw [htext] <;> decide
      · rw [hstop.1]
        decide
    | some v => exact hends (by decide) (by decide)

/-- **A parameter is read from its tokens**, with the comma behind it. -/
theorem reads_tokens (hstop : stop.EndsElement) (lead : String) (more : List Token) :
    ∃ e, outerElement (p.tokens lead ++ stop :: more) =
      .ok ([e], if stop.text = "," then more else stop :: more) ∧
      p.Says e := by
  have hstops := p.stops_restTokens hstop more
  obtain ⟨u, htype, hisType, htokens, hnone⟩ := reads_typeTokens htokenize p hstops lead
  obtain ⟨names, labels, hlabels, hlabelling, hnames⟩ :=
    reads_labelTokens p (lexical_of_tokensFrom htokenize) lead hnone
  obtain ⟨dots, initializer, separator, value, separated, hrest, hdots, hinitializer, hseparator, hvalue⟩ :=
    reads_restTokens htokenize p hstop more
  have hcarries : Carries names u p.variadic value ([] ++ labels.map .token ++ [u] ++
      (dots.map .token ++ initializer ++ separator.map .token)) :=
    .mk nofun hlabelling hisType hdots hinitializer hseparator
  refine ⟨_, node_ok ?_, ?_, u, hcarries.type .tupleTypeElement, ?_⟩
  · rw [tokens, append_assoc, append_assoc]
    exact seq_ok (seq_ok hlabels htype) hrest
  · rw [hcarries.elementLabels, Parameter.labels, labelsOf, labelsOf, hnames, hvalue]
  · rw [Tree.text, htokens, typeTokens, joined_written]

/-- A parameter does not begin like the end of a list. -/
theorem not_sees_tokens (lead : String) (more : List Token) :
    sees ")" (p.tokens lead ++ more) = false ∧ seesEnd (p.tokens lead ++ more) = false := by
  have hlex := lexical_of_tokensFrom htokenize
  have hwords : ∀ w ∈ p.names, (w.text == ")") = false := fun w hw =>
    beq_eq_false_iff_ne.mpr (text_ne_of_isWord (hlex w (p.isWord w hw).1) (p.isWord w hw).2 rfl)
  obtain ⟨u, hu⟩ := p.type_read
  obtain ⟨t, ts, hts⟩ := exists_cons_of_ne_nil p.type_ne_nil
  have hfirst : (t.text == ")") = false := by
    have ht : t ∈ all := p.type_isInfix.mem (hts ▸ mem_cons_self)
    rw [hts] at hu
    exact beq_eq_false_iff_ne.mpr (text_ne_of_type (hlex t ht) hu)
  unfold tokens labelTokens typeTokens
  rw [hts]
  match p.names, hwords with
  | [], _ => exact ⟨hfirst, rfl⟩
  | [w], hwords => exact ⟨hwords w mem_cons_self, rfl⟩
  | w :: v :: _, hwords => exact ⟨hwords w mem_cons_self, rfl⟩

/-- A parameter and the comma behind it are read in one round. -/
theorem reads_round (lead : String) (stop : Token) (hstop : stop.EndsElement) {after rest : List Token}
    {es : List Tree}
    (hrest : elements outerElement (if stop.text = "," then after else stop :: after) = .ok (es, rest)) :
    ∃ e, elements outerElement (p.tokens lead ++ stop :: after) = .ok (e :: es, rest) ∧ p.Says e := by
  obtain ⟨e, he, hsays⟩ := reads_tokens htokenize p hstop lead after
  obtain ⟨hclose, hmore⟩ := not_sees_tokens htokenize p lead (stop :: after)
  have hlt := consumes_tupleElement (lawful_type _) (consumes_type _) .tupleTypeElement (by simp) he
  have hround : require (fun ts => !seesEnd ts) "')'" outerElement (p.tokens lead ++ stop :: after) =
      .ok ([e], _) :=
    (either_of_yes (by rw [hmore]; rfl)).trans he
  exact ⟨e, many_round_ok (by rw [hclose]; rfl) hround hlt hrest, hsays⟩

omit p in
/-- **A list of parameters is read from its tokens**, up to the closing parenthesis. -/
theorem reads_listTokens (ps : List (Parameter all)) (lead : String) (more : List Token) :
    ∃ es, elements outerElement (listTokens lead ps ++ closeParen :: more) = .ok (es, closeParen :: more) ∧
      List.Forall₂ Says ps es := by
  have hend : elements outerElement (closeParen :: more) = .ok ([], closeParen :: more) := many_of_not rfl
  induction ps generalizing lead with
  | nil => exact ⟨[], hend, .nil⟩
  | cons p ps ih =>
    cases ps with
    | nil =>
      obtain ⟨e, he, hsays⟩ := reads_round htokenize p lead closeParen ⟨rfl, .inr rfl⟩ hend
      exact ⟨[e], he, .cons hsays .nil⟩
    | cons q ps =>
      obtain ⟨es, hes, hall⟩ := ih " "
      obtain ⟨e, he, hsays⟩ := reads_round htokenize p lead comma ⟨rfl, .inl rfl⟩ hes
      refine ⟨e :: es, ?_, .cons hsays hall⟩
      rw [listTokens, append_assoc, cons_append]
      exact he

end

/-- The tree of a function type with these elements that returns nothing. -/
def functionTree (es : List Tree) : Tree :=
  .node .functionType [.token openParen, .node .tupleTypeElementList es, .token closeParen,
    .token arrow, .node .identifierType [.token void]]

/-- **A function type is read from its tokens.** -/
theorem reads_functionTokens {source : String} (htokenize : tokenize source = .ok all)
    (ps : List (Parameter all)) :
    ∃ es, soleType (functionTokens ps) = .ok ([functionTree es], []) ∧ List.Forall₂ Says ps es := by
  obtain ⟨es, hes, hall⟩ := reads_listTokens htokenize ps "" [arrow, void]
  have hparen := parenType_of_arrow hes (type_void (nestingLimit - 2))
  exact ⟨es, soleType_of_type (typeBody_of_parenType ⟨'(', [], rfl, rfl⟩ rfl hparen), hall⟩

/-- The parameter says the same of trees that differ in the places of their tokens. -/
theorem Says.of_unplaced {p : Parameter all} {e : Tree} (h : p.Says (e.relabel unplaced)) : p.Says e := by
  have hg : Token.Faithful unplaced e.tokens := by
    constructor
    all_goals exact fun _ _ => rfl
  obtain ⟨hlabels, u, hu, htext⟩ := h
  rw [elementLabels_relabel hg] at hlabels
  rw [Tree.childType?_relabel] at hu
  obtain ⟨v, hv, rfl⟩ := Option.map_eq_some_iff.mp hu
  rw [Tree.text_relabel (Tree.faithful_child hg (Tree.mem_children_of_childType? hv))] at htext
  exact ⟨hlabels, v, hv, htext⟩

variable {ps : List (Parameter all)}

/-- Elements are nodes, since tokens have no type. -/
theorem filter_isNode_of_says {es : List Tree} (h : List.Forall₂ Says ps es) :
    es.filter Tree.isNode = es := by
  induction h with
  | nil => rfl
  | @cons p e ps es hsays _ ih =>
    have hnode : e.isNode = true := by
      obtain ⟨-, u, hu, -⟩ := hsays
      cases e with
      | token t => cases hu
      | node k cs => rfl
    rw [filter_cons_of_pos hnode, ih]

theorem forall₂_of_map {es : List Tree}
    (h : List.Forall₂ Says ps (es.map (Tree.relabel unplaced))) : List.Forall₂ Says ps es := by
  rw [forall₂_map_right_iff] at h
  exact h.imp fun _ _ hsays => hsays.of_unplaced

/-- **A function type that was written is read back**: the text is a function type, whose elements say
what the parameters do. -/
theorem parseType_functionText {source : String} (htokenize : tokenize source = .ok all) (hne : ps ≠ []) :
    ∃ u list, parseType (functionText ps) = .ok (.node .typeRoot [u]) ∧ u.text = functionText ps ∧
      u.kind? = some .functionType ∧ u.child? .tupleTypeElementList = some list ∧
      List.Forall₂ Says ps list.childNodes := by
  obtain ⟨ts, hts, hmap⟩ := rereads_functionTokens htokenize ps 0
  have hlayout := layout_functionTokens ps hne (lexical_of_tokensFrom htokenize)
  obtain ⟨es, hread, hall⟩ := reads_functionTokens htokenize ps
  rw [← hmap] at hread
  obtain ⟨u, hu, hrelabel⟩ := lawful_soleType.of_unplaced hread
  have htokens : u.tokens = ts := by
    have hkeeps := lawful_soleType.keeps hu
    rwa [Tree.forestTokens_singleton, append_nil] at hkeeps
  have hchild : (u.child? .tupleTypeElementList).map (Tree.relabel unplaced) =
      some (.node .tupleTypeElementList es) := by
    rw [← Tree.child?_relabel, hrelabel]
    rfl
  obtain ⟨list, hlist, hes⟩ := Option.map_eq_some_iff.mp hchild
  refine ⟨u, list, ?_, ?_, ?_, hlist, forall₂_of_map ?_⟩
  · unfold parseType parseWith
    rw [hlayout] at hts
    simp only [tokenize, hts, hu]
  · refine String.toList_injective ?_
    rw [Tree.text, htokens, ← joined_unplaced, hmap, ← hlayout, functionTokens, toList_joined, layout_cons]
    rfl
  · rw [← Tree.kind?_relabel unplaced, hrelabel]
    rfl
  · rw [← Tree.childNodes_relabel, hes, Tree.childNodes, Tree.children, filter_isNode_of_says hall]
    exact hall

end Parameter

end SwiftOutline
