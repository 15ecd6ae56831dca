import SwiftOutline.Proofs.Grammar.Schema

/-!
# `SchemaRules` — every accepted tree fits the schema

The rules of the grammar, one by one, leave nodes whose children have the layout of `childLayout`. Some
nodes matter beyond their layout, so for them it is kept from which tokens and at which level of nesting
they were read: elements of lists (`NodeKind.isElement`), function types, declarations, and the types
that nodes hold.
-/

namespace SwiftOutline

open NodeKind List

/-! ## Tokens by their texts -/

/-- The class of the token that this text is by itself. -/
def lexicalKind? (text : String) : Option TokenKind :=
  match text.toList with
  | [] => none
  | c :: cs => (scanLexeme 0 c cs).toOption.map Lexeme.kind

variable {t : Token} {source : String} {tree : Tree}

/-- The text of a token tells its kind. -/
theorem Token.Lexical.lexicalKind?_eq (h : t.Lexical) : lexicalKind? t.text = some t.kind := by
  obtain ⟨c, cs, htext, hscan⟩ := h
  rw [lexicalKind?, htext]
  simp only [hscan]
  rfl

/-- By `lexicalKind?_eq`, for a text that is known. -/
theorem Token.Lexical.kind_of_text (h : t.Lexical) {text : String} {kind : TokenKind}
    (htext : t.text = text) (hkind : lexicalKind? text = some kind) : t.kind = kind := by
  have heq := h.lexicalKind?_eq
  rw [htext, hkind] at heq
  exact (Option.some.inj heq).symm

theorem Token.Lexical.kind_of_contains (h : t.Lexical) {texts : List String}
    (htexts : ∀ text ∈ texts, lexicalKind? text = some .punct) (htext : texts.contains t.text = true) :
    t.kind = .punct :=
  h.kind_of_text rfl (htexts _ (contains_iff_mem.mp htext))

theorem Token.Lexical.isOpener (h : t.Lexical) (htext : ["(", "[", "\x7b"].contains t.text = true) :
    isOpener t = true := by
  rw [SwiftOutline.isOpener, h.kind_of_contains (by decide) htext, htext]
  rfl

theorem Token.Lexical.isCloser (h : t.Lexical) (htext : [")", "]", "\x7d"].contains t.text = true) :
    isCloser t = true := by
  rw [SwiftOutline.isCloser, h.kind_of_contains (by decide) htext, htext]
  rfl

/-- No bracket both opens and closes. -/
theorem not_isCloser_of_isOpener (h : isOpener t = true) : isCloser t = false := by
  rw [isOpener, Bool.and_eq_true] at h
  have htext := h.2
  simp only [contains_eq_mem, mem_cons, not_mem_nil, or_false, decide_eq_true_eq] at htext
  rw [isCloser, h.1]
  rcases htext with htext | htext | htext <;> rw [htext] <;> decide

/-! ## Several tokens at once -/

/-- A word at the second place has a token in front. -/
theorem exists_cons_cons_of_isWordAt {ts : List Token} (h : isWordAt 1 ts = true) :
    ∃ t u rest, ts = t :: u :: rest ∧ u.isWord = true := by
  match ts, h with
  | t :: u :: rest, h => exact ⟨t, u, rest, rfl, h⟩

theorem exists_cons_cons_of_textAt (ask : String → Bool) {ts : List Token} (hempty : ask "" = false)
    (h : ask (textAt 1 ts) = true) : ∃ t u rest, ts = t :: u :: rest ∧ ask u.text = true := by
  match ts, h with
  | [], h =>
    exact absurd h (by rw [show textAt 1 ([] : List Token) = "" from rfl, hempty]; exact Bool.false_ne_true)
  | [_], h => exact absurd h (by rw [show textAt 1 [_] = "" from rfl, hempty]; exact Bool.false_ne_true)
  | t :: u :: rest, h => exact ⟨t, u, rest, rfl, h⟩

namespace Rule

open Layout Lookahead

section

variable {all : List Token} {P : NodeKind → List Tree → Prop} {pre post : List Token → Prop}

variable {c : TokenClass}

/-- Two tokens, each of its class. -/
theorem fits_bumps_two {c' : TokenClass}
    (h : ∀ ⦃ts⦄, pre ts → ∃ t u rest, ts = t :: u :: rest ∧ c.holds t = true ∧ c'.holds u = true) :
    Reads all P pre (.token c ++ .token c') (bumps 2) where
  keeps := keeps_bumps 2
  fits ts f rest htail hin hok := by
    obtain ⟨t, u, rest, rfl, hc, hc'⟩ := h hin
    cases hok
    refine ⟨⟨[.token t], [.token u], rfl, ⟨t, rfl, htail.mem (by simp), hc⟩, u, rfl,
      htail.mem (by simp), hc'⟩, trivial, every_map_token [t, u]⟩

/-- Three tokens, each of its class. -/
theorem fits_bumps_three {c' c'' : TokenClass}
    (h : ∀ ⦃ts⦄, pre ts → ∃ t u v rest, ts = t :: u :: v :: rest ∧ c.holds t = true ∧ c'.holds u = true ∧
      c''.holds v = true) :
    Reads all P pre (.token c ++ .token c' ++ .token c'') (bumps 3) where
  keeps := keeps_bumps 3
  fits ts f rest htail hin hok := by
    obtain ⟨t, u, v, rest, rfl, hc, hc', hc''⟩ := h hin
    cases hok
    exact ⟨⟨[.token t, .token u], [.token v], rfl,
      ⟨[.token t], [.token u], rfl, ⟨t, rfl, htail.mem (by simp), hc⟩, u, rfl, htail.mem (by simp), hc'⟩,
      v, rfl, htail.mem (by simp), hc''⟩, trivial, every_map_token [t, u, v]⟩

/-- A dot with a token behind it. -/
theorem fits_dotted (h : ∀ ⦃ts⦄, pre ts → ∃ t u rest, ts = t :: u :: rest ∧ t.text = "." ∧ c.holds u = true) :
    Reads all P pre (mark "." ++ .token c) (bumps 2) := by
  refine fits_bumps_two fun ts hin => ?_
  obtain ⟨t, u, rest, rfl, hdot, hu⟩ := h hin
  exact ⟨t, u, rest, rfl, by simp [TokenClass.holds, hdot], hu⟩

/-! ## Groups and runs -/

/-- The tokens of a group, behind a question that has seen its opening bracket. -/
theorem fits_group {ask : Lookahead} (hask : ask.OfHead)
    (hopen : ∀ t ts, ask (t :: ts) = true → ["(", "[", "\x7b"].contains t.text = true) :
    Reads all P (Asked ask) .group group where
  keeps := lawful_group.keeps
  fits ts f rest htail hin hok := by
    obtain ⟨first, ts, rfl⟩ := hask.exists_cons hin
    obtain ⟨run, hrun, rfl⟩ := group_eq_ok hok
    have hopener := (htail.mem mem_cons_self).isOpener (hopen first ts hin)
    have hdepth : depthAfter 0 first = 1 := by rw [depthAfter, if_pos hopener]
    rw [takeGroup, not_isCloser_of_isOpener hopener, Bool.false_and,
      if_neg Bool.false_ne_true, hdepth] at hrun
    obtain ⟨p, hp, heq⟩ := Option.map_eq_some_iff.mp hrun
    cases heq
    have hcut := takeGroup_cut hp []
    rw [append_nil] at hcut
    exact ⟨⟨first, p.1, rfl, hopener, hcut⟩, trivial, every_map_token _⟩

/-- By `fits_group`: the text opens a bracket. -/
theorem fits_group_sees {text : String} (htext : ["(", "[", "\x7b"].contains text = true) :
    Reads all P (Asked (sees text)) .group group :=
  fits_group (ofHead_sees text) fun t ts h => by
    have heq : t.text = text := by simpa [sees] using h
    rw [heq, htext]

theorem fits_group_adjacent : Reads all P (Asked (seesAdjacent "(")) .group group :=
  fits_group (ofHead_seesAdjacent "(") fun t ts h => by
    rw [eq_of_beq (Bool.and_eq_true_iff.mp h).1]
    decide

/-- The run is what `takeRun` takes off the input. -/
theorem fits_run (comma : Bool) {p : Rule} (hp : Keeps p)
    (hrun : ∀ ts, p ts = .ok ((takeRun comma false 0 ts).1.map .token, (takeRun comma false 0 ts).2)) :
    Reads all P pre (.run comma) p where
  keeps := hp
  fits ts f rest htail _ hok := by
    rw [hrun] at hok
    cases hok
    have happend := takeRun_append comma false 0 ts
    exact ⟨⟨_, _, rfl, by rw [happend]; exact htail.suffix, by rw [happend]⟩, trivial, every_map_token _⟩

/-- A run of tokens, whatever they are. -/
theorem matches_star_any {run : List Token} (h : ∀ t ∈ run, t.Lexical) :
    (star (.token .any)).Matches all (run.map .token) := by
  induction run with
  | nil => exact matches_star_nil
  | cons t run ih =>
    have hfirst : (token .any).Matches all [.token t] := ⟨t, rfl, h t mem_cons_self, rfl⟩
    exact matches_star_cons hfirst (ih fun u hu => h u (mem_cons_of_mem t hu))

theorem fits_requirements : Reads all P pre (star (.token .any)) requirements where
  keeps := lawful_requirements.keeps
  fits ts f rest htail _ hok := by
    cases hok
    refine ⟨matches_star_any fun t ht => htail.mem ?_, trivial, every_map_token _⟩
    rw [← takeRequirements_append "where" false 0 ts]
    exact mem_append_left _ ht

end

end Rule

/-! ## Types -/

/-- The kinds of node that are elements of a list and carry a type. -/
def NodeKind.isElement : NodeKind → Bool
  | .tupleTypeElement | .enumCaseParameter | .functionParameter => true
  | _ => false

theorem NodeKind.holdsType_of_isElement {k : NodeKind} (h : k.isElement = true) : k.holdsType = true := by
  cases k <;> first | rfl | cases h

namespace Rule

open Layout Lookahead

/-- Reads an element of a kind. -/
def element (inner : Rule) (kind : NodeKind) : Rule :=
  if kind = .functionParameter then functionParameter inner else tupleElement inner kind

/-- What a property of nodes has to follow from: the layout of the children, for a node that holds a type
also that the type was read by `inner`, and for elements and function types that they were read by their
rules. -/
structure Admits (all : List Token) (inner : Rule) (P : NodeKind → List Tree → Prop) : Prop where
  plain : ∀ kind : NodeKind, kind.isPlain = true → ∀ ⦃cs⦄, (childLayout kind).Matches all cs → P kind cs
  holder : ∀ ⦃kind ts cs rest⦄, kind.holdsType = true → Token.Tail all ts →
    (kind.isElement = true → element inner kind ts = .ok ([.node kind cs], rest)) →
    (∀ ⦃k ds⦄, .node k ds ∈ cs →
    IfType (fun u => ∃ us left, Token.Tail all us ∧ inner us = .ok ([u], left)) k ds) →
      (childLayout kind).Matches all cs → P kind cs
  functionType : ∀ ⦃ts cs rest⦄, Token.Tail all ts → sees "(" ts = true →
    parenType inner ts = .ok ([.node .functionType cs], rest) → (childLayout .functionType).Matches all cs →
    P .functionType cs

section

variable {all : List Token} {P : NodeKind → List Tree → Prop} {pre post : List Token → Prop} {inner p : Rule}
  {kind : NodeKind}

/-- A node that holds a type. -/
theorem Fits.holder (hp : Fits all P pre (childLayout kind) post p) (hP : Admits all inner P)
    (hkind : kind.holdsType = true) (htypes : TypesBy all inner pre p)
    (hrule : kind.isElement = true → Rule.element inner kind = Rule.node kind p) :
    Fits all P pre (.node [kind]) post (Rule.node kind p) :=
  hp.node_of fun _ _ _ htail hin hok hmatch => hP.holder hkind htail
    (fun helement => hrule helement ▸ node_ok hok)
    (htypes htail hin hok) hmatch

/-- A clause, with its type behind a mark. -/
theorem Fits.clause {s : Layout} (hp : Reads all P pre s p) (hP : Admits all inner P)
    (hinner : Reads all P Anywhere aType inner) (hkind : kind.holdsType = true)
    (helement : kind.isElement = false) (hlayout : childLayout kind = s ++ aType)
    (hs : s.kinds.all (!isType ·) = true) : Reads all P pre (.node [kind]) (Rule.node kind (p ++ inner)) :=
  Fits.holder (hlayout ▸ hp.seq hinner) hP hkind ((typesBy_inner hinner).after hp hs) (by simp [helement])

end

section

variable {all : List Token} {P : NodeKind → List Tree → Prop} {pre : List Token → Prop} {inner : Rule}
  (hP : Admits all inner P)
include hP

/-- `@`, a name with dots, and arguments that touch it. -/
theorem fits_declAttribute :
    Reads all P (Asked (seesKind .atSign)) (.node [.declAttribute]) declAttribute := by
  have hname : Reads all P (Asked fun ts => seesAdjacent "." ts && isWordAt 1 ts) (mark "." ++ word)
      (bumps 2) := by
    refine fits_dotted fun ts hin => ?_
    obtain ⟨hdot, hword⟩ := Bool.and_eq_true_iff.mp hin
    obtain ⟨t, u, rest, rfl, hu⟩ := exists_cons_cons_of_isWordAt hword
    exact ⟨t, u, rest, rfl, eq_of_beq (Bool.and_eq_true_iff.mp hdot).1, hu⟩
  have harguments := fits_group_adjacent.node (hP.plain .attributeArguments rfl)
  exact ((((fits_kind .atSign).seq (fits_expectWord _)).seq hname.repeated).seq harguments.optional).node
    (hP.plain .declAttribute rfl)

theorem fits_attributeList : Reads all P pre (.node [.attributeList]) attributeList :=
  (fits_declAttribute hP).repeated.node (hP.plain .attributeList rfl)

theorem fits_attributes : Reads all P pre (opt (.node [.attributeList]))
    (optional (seesKind .atSign) attributeList) :=
  (fits_attributeList hP).optional

/-- Effects, where the type of an error may touch `throws`. -/
theorem fits_effectSpecifiers : Reads all P pre (.node [.effectSpecifiers]) effectSpecifiers := by
  have htext : ∀ ⦃ts⦄, seesEffect ts = true → ∃ t rest, ts = t :: rest ∧
      ["async", "reasync", "throws", "rethrows"].contains t.text = true := by
    intro ts hask
    obtain ⟨t, rest, rfl⟩ := ofHead_seesEffect.exists_cons hask
    rw [seesEffect, Bool.and_eq_true] at hask
    exact ⟨t, rest, rfl, hask.1⟩
  have hthrows : Reads all P (fun ts => Asked seesEffect ts ∧ Asked seesThrows ts)
      (.token (.text ["throws", "rethrows"]) ++ opt .group)
      (bump ++ optional (seesAdjacent "(") group) := by
    refine Fits.seq (fits_bump fun ts hin => ?_) fits_group_adjacent.optional
    obtain ⟨t, rest, rfl, -⟩ := htext hin.1
    have h : (t.text == "throws" || t.text == "rethrows") = true := hin.2
    exact ⟨t, rest, rfl, by simpa [TokenClass.holds] using h⟩
  have hasync : Reads all P (fun ts => Asked seesEffect ts ∧ Refused seesThrows ts)
      (.token (.text ["async", "reasync"])) bump := by
    refine fits_bump fun ts hin => ?_
    obtain ⟨t, rest, rfl, ht⟩ := htext hin.1
    have h : (t.text == "throws" || t.text == "rethrows") = false := hin.2
    refine ⟨t, rest, rfl, ?_⟩
    simp only [Bool.or_eq_false_iff, beq_eq_false_iff_ne] at h
    simpa [TokenClass.holds, h.1, h.2] using ht
  exact (hthrows.either hasync).repeated.node (hP.plain .effectSpecifiers rfl)

/-- Behind the effects that a search for an arrow has passed stands the arrow. -/
theorem fits_effects_arrow : Fits all P (Asked seesFunctionArrow) (opt (.node [.effectSpecifiers]))
    (Asked (seesKind .arrow)) (optional seesEffect effectSpecifiers) := by
  refine (fits_effectSpecifiers hP).optional.leaving fun ts f rest htail hin hok => ?_
  have harrow : (afterEffects? ts).any (seesKind .arrow) = true := hin
  rwa [afterEffects?_of_optional (fun t ht => htail.mem ht) hok] at harrow

/-- `=` and a value. -/
theorem fits_initializerClause :
    Reads all P (Asked (sees "=")) (.node [.initializerClause]) initializerClause := by
  have hrun : Reads all P Anywhere (.run true) exprRun := fits_run true lawful_exprRun.keeps fun _ => rfl
  exact ((fits_mark "=").seq ((hrun.nonempty _).node (hP.plain .expr rfl))).node
    (hP.plain .initializerClause rfl)

omit hP in
theorem fits_separator (closer what : String) :
    Reads all P pre (opt (mark ",")) (either (sees ",") bump (require (sees closer) what nothing)) :=
  (fits_mark ",").asked.either (Fits.require what fits_nothing.forget)

omit hP in
/-- Entries end at their closing token. -/
theorem Fits.entries {s : Layout} {entry : Rule} (h : Reads all P Anywhere s entry)
    (hreads : Consumes entry) (hlaw : Lawful entry) (closer what : String) :
    Fits all P pre (star s) (Asked (sees closer)) (Rule.entries closer what entry) := by
  have hentry : Reads all P (Asked fun ts => !sees closer ts) s
      (Rule.require (fun ts => !seesEnd ts) what entry) := Fits.require what h.anywhere
  refine (hentry.many fun ts _ => hreads.advances_entry hlaw what ts).imp
    (fun _ hin => hin) (fun _ hf => hf) ?_
  intro ts hrefused
  have hno : (!sees closer ts) = false := hrefused
  rwa [Bool.not_eq_false'] at hno

theorem fits_elementRest : Reads all P pre afterElement elementRest :=
  ((fits_kind .ellipsis).optional.seq (fits_initializerClause hP).optional).seq (fits_separator ")" _)

omit hP in
/-- One or two names in front of `:`, or none. -/
theorem fits_elementLabels : Reads all P pre labels elementLabels := by
  refine Fits.either (Fits.asked ?_) (Fits.anywhere (Fits.optional ?_))
  · refine fits_bumps_two fun ts hin => ?_
    obtain ⟨hword, hcolon⟩ := Bool.and_eq_true_iff.mp hin
    obtain ⟨t, u, rest, rfl, hu⟩ := exists_cons_cons_of_textAt (· == ":") (by decide) hcolon
    exact ⟨t, u, rest, rfl, hword, by simpa [TokenClass.holds] using hu⟩
  · refine fits_bumps_three fun ts hin => ?_
    obtain ⟨hwords, hthird⟩ := Bool.and_eq_true_iff.mp hin
    obtain ⟨hfirst, hsecond⟩ := Bool.and_eq_true_iff.mp hwords
    obtain ⟨t, u, rest, rfl, hu⟩ := exists_cons_cons_of_isWordAt hsecond
    have hcolon : (textAt 1 (u :: rest) == ":") = true := hthird
    obtain ⟨u, v, rest, hrest, hv⟩ := exists_cons_cons_of_textAt (· == ":") (by decide) hcolon
    cases hrest
    exact ⟨t, u, v, rest, rfl, hfirst, hu, by simpa [TokenClass.holds] using hv⟩

variable (hinner : Reads all P Anywhere aType inner) (hlaw : Lawful inner) (hreads : Consumes inner)
include hinner

/-- Labels, a type, `...` and a value. -/
theorem fits_tupleElement {kind : NodeKind} (hkind : kind = .tupleTypeElement ∨ kind = .enumCaseParameter) :
    Reads all P pre (.node [kind]) (tupleElement inner kind) := by
  have hlabels : Reads all P pre labels elementLabels := fits_elementLabels
  have htypes := ((typesBy_inner hinner).after hlabels rfl).before (hlabels.seq hinner)
      (fits_elementRest hP) rfl
  have hchildren := (hlabels.seq hinner).seq (fits_elementRest hP)
  rcases hkind with rfl | rfl
  · exact Fits.holder hchildren hP rfl htypes fun _ => rfl
  · exact Fits.holder hchildren hP rfl htypes fun _ => rfl

include hlaw hreads

/-- Types between `<` and `>`. -/
theorem fits_genericArgumentClause :
    Reads all P (Asked (sees "<")) (.node [.genericArgumentClause]) (genericArgumentClause inner) := by
  have hargument := Fits.holder (hinner.seq (fits_separator ">" "',' or '>'")) hP
    (show NodeKind.genericArgument.holdsType = true from rfl)
    ((typesBy_inner hinner).before hinner (fits_separator ">" _) rfl) (by simp [NodeKind.isElement])
  exact (((fits_mark "<").seq (hargument.entries ((hreads.seq_left (lawful_separator ">" _)).node _)
    ((hlaw.seq (lawful_separator ">" _)).node _) ">" _)).seq (fits_mark ">")).node
    (hP.plain .genericArgumentClause rfl)

theorem fits_arguments : Reads all P pre (opt (.node [.genericArgumentClause]))
    (optional (sees "<") (genericArgumentClause inner)) :=
  (fits_genericArgumentClause hP hinner hlaw hreads).optional

/-- Elements between parentheses. -/
theorem fits_parenInputs :
    Reads all P (Asked (sees "(")) (mark "(" ++ .node [.tupleTypeElementList] ++ mark ")")
    (bump ++ node .tupleTypeElementList (elements (tupleElement inner .tupleTypeElement)) ++ bump) := by
  have helements : Fits all P Anywhere (star (.node [.tupleTypeElement])) (Asked (sees ")"))
      (elements (tupleElement inner .tupleTypeElement)) :=
    (fits_tupleElement hP hinner (.inl rfl)).entries (consumes_tupleElement hlaw hreads _)
      (lawful_tupleElement hlaw _) ")" "')'"
  exact ((fits_mark "(").seq (helements.node (hP.plain .tupleTypeElementList rfl))).seq (fits_mark ")")

/-- A tuple, or the inputs of a function type with its result. -/
theorem fits_parenType : Reads all P (Asked (sees "(")) aType (parenType inner) := by
  refine (fits_parenInputs hP hinner hlaw hreads).closing fun ts => ?_
  split
  · next harrow =>
    refine ⟨show functionType ∈ typeKinds by decide, _, ?_, fun _ _ _ htail hin hok hmatch =>
      hP.functionType htail hin hok hmatch⟩
    refine (((fits_effects_arrow hP).seq (fits_kind .arrow)).seq hinner).given ?_
    rintro us rfl
    exact harrow
  · refine ⟨by decide, .empty, ?_, fun _ _ _ _ _ _ hmatch => hP.plain .tupleType rfl hmatch⟩
    have hnothing : Reads all P Anywhere .empty nothing := fits_nothing
    exact hnothing.anywhere

omit hlaw hreads in
/-- One type between brackets, or two with `:`. -/
theorem fits_collectionType : Reads all P (Asked (sees "[")) aType (collectionType inner) := by
  refine ((fits_mark "[").seq hinner).closing fun ts => ?_
  split
  · next hcolon =>
    refine ⟨show dictionaryType ∈ typeKinds by decide, _, ?_,
      fun _ _ _ _ _ _ hmatch => hP.plain .dictionaryType rfl hmatch⟩
    refine (((fits_mark ":").seq hinner).seq (fits_expect "]")).given ?_
    rintro us rfl
    exact hcolon
  · exact ⟨by decide, _, fits_expect "]", fun _ _ _ _ _ _ hmatch => hP.plain .arrayType rfl hmatch⟩

/-- By the first token (`fits_parenType`, `fits_collectionType`). -/
theorem fits_primaryType : Reads all P pre aType (primaryType inner) := by
  have hidentifier := (fits_word.seq (fits_arguments hP hinner hlaw hreads)).node
      (hP.plain .identifierType rfl)
  exact Fits.either_same (fits_parenType hP hinner hlaw hreads).asked
    (Fits.either_same (fits_collectionType hP hinner).asked
      (Fits.require _ (hidentifier.oneOf (by decide)).asked))

/-- One case for each form that goes on with a type. -/
theorem fits_postfixType : Reads all P pre aType (postfixType inner) := by
  refine (fits_primaryType hP hinner hlaw hreads).wrapping fun ts kind q hform => ?_
  have hat {text : String} (hsees : sees text ts = true) :
      Reads all P (fun us => us = ts) (mark text) bump := by
    refine (fits_mark text).given ?_
    rintro us rfl
    exact hsees
  unfold postfixForm at hform
  split at hform
  · next hsees =>
    cases hform
    exact ⟨by decide, _, hat hsees, hP.plain .optionalType rfl⟩
  split at hform
  · next hsees =>
    cases hform
    exact ⟨by decide, _, hat hsees, hP.plain .implicitlyUnwrappedOptionalType rfl⟩
  split at hform
  · next hdot =>
    rw [Bool.and_eq_true] at hdot
    obtain ⟨t, u, rest, rfl, hu⟩ := exists_cons_cons_of_isWordAt hdot.2
    have htext : t.text = "." := by simpa [sees] using hdot.1
    split at hform
    · next hname =>
      cases hform
      refine ⟨by decide, _, fits_dotted ?_, hP.plain .metatypeType rfl⟩
      rintro us rfl
      exact ⟨t, u, rest, rfl, htext, hname⟩
    · cases hform
      refine ⟨by decide, _, Fits.seq (fits_dotted ?_) (fits_arguments hP hinner hlaw hreads),
        hP.plain .memberType rfl⟩
      rintro us rfl
      exact ⟨t, u, rest, rfl, htext, hu⟩
  · cases hform

/-- Attributes and specifiers, `some` or `any`, or `~`. -/
theorem fits_simpleType : Reads all P pre aType (simpleType inner) := by
  have hpostfix {pre : List Token → Prop} : Reads all P pre aType (postfixType inner) :=
    fits_postfixType hP hinner hlaw hreads
  have hspecifier : Reads all P (Asked seesTypeSpecifier) (.token (.text typeSpecifiers)) bump := by
    refine fits_bump fun ts hin => ?_
    obtain ⟨t, rest, rfl⟩ := exists_cons_of_ne_nil (ne_nil_of_seesTypeSpecifier hin)
    obtain ⟨hword, -⟩ := Bool.and_eq_true_iff.mp hin
    exact ⟨t, rest, rfl, (Bool.and_eq_true_iff.mp hword).1⟩
  have hspecifiers : Reads all P Anywhere (star (.token (.text typeSpecifiers)))
      (many seesTypeSpecifier bump) :=
    hspecifier.repeated
  have hmarked := ((hspecifiers.seq (fits_attributes hP)).seq hpostfix).node (hP.plain .attributedType rfl)
  have hworded : Reads all P (Asked seesSomeOrAny) (.token (.text ["some", "any"])) bump := by
    refine fits_bump fun ts hin => ?_
    obtain ⟨hword, -⟩ := Bool.and_eq_true_iff.mp hin
    obtain ⟨t, rest, rfl⟩ := ((ofHead_sees "some").or (ofHead_sees "any")).exists_cons hword
    have htext : (t.text == "some" || t.text == "any") = true := hword
    exact ⟨t, rest, rfl, by simpa [TokenClass.holds] using htext⟩
  have htilde := ((fits_mark "~").seq hpostfix).node (hP.plain .suppressedType rfl)
  exact Fits.either_same (hmarked.oneOf (by decide)).anywhere
    (Fits.either_same (((hworded.seq hpostfix).node (hP.plain .someOrAnyType rfl)).oneOf (by decide)).asked
      (Fits.either_same (htilde.oneOf (by decide)).asked hpostfix))

/-- Types with `&` between them. -/
theorem fits_typeBody : Reads all P pre aType (typeBody inner) := by
  have hsimple {pre : List Token → Prop} : Reads all P pre aType (simpleType inner) :=
    fits_simpleType hP hinner hlaw hreads
  refine hsimple.wrapping fun ts kind q hform => ?_
  unfold compositionForm at hform
  split at hform
  · cases hform
    exact ⟨by decide, _, ((fits_mark "&").seq hsimple).repeated, hP.plain .compositionType rfl⟩
  · cases hform

end

/-! ## Declarations -/

section

variable {all : List Token} {P : NodeKind → List Tree → Prop} {pre : List Token → Prop} {type : Rule}
  (hP : Admits all type P)
include hP

theorem fits_name : Reads all P pre (.node [.name]) name :=
  (fits_expectWord _).node fun _ hmatch => hP.plain .name rfl (.inl hmatch)

/-- A word, or operators that touch. -/
theorem fits_functionName : Reads all P pre (.node [.name]) functionName := by
  have hoperator : Reads all P (Asked seesOperator) (.token .operator) bump :=
    fits_bump_head ofHead_seesOperator fun _ _ h => h
  have hmore : Reads all P (Asked fun ts => seesOperator ts && ts.head?.any Token.isAdjacent)
      (.token .operator)
      bump :=
    hoperator.given fun ts hin => (Bool.and_eq_true_iff.mp hin).1
  exact (fits_word.asked.either ((Fits.require _ hoperator.asked).seq hmore.repeated)).node
    (hP.plain .name rfl)

theorem fits_whereClause : Reads all P pre (opt (.node [.genericWhereClause]))
    (optional (sees "where") whereClause) :=
  (((fits_mark "where").seq (fits_requirements.nonempty _)).node (hP.plain .genericWhereClause rfl)).optional

theorem fits_accessorBlock : Reads all P pre (opt (.node [.accessorBlock]))
    (optional (sees "\x7b") accessorBlock) :=
  ((fits_group_sees (by decide)).node (hP.plain .accessorBlock rfl)).optional

/-- A word and its detail in parentheses (`modifierLength?`). -/
theorem fits_declModifier : Reads all P (Asked isModifier) (.node [.declModifier]) declModifier where
  keeps := lawful_declModifier.keeps
  fits ts f rest htail hin hok := by
    obtain ⟨n, hn⟩ := Option.isSome_iff_exists.mp hin
    obtain ⟨rfl, rfl⟩ := declModifier_eq_ok hn hok
    refine ⟨⟨_, mem_singleton.mpr rfl, _, rfl⟩, trivial, fun u hu => ?_⟩
    cases mem_singleton.mp hu
    refine .node (hP.plain .declModifier rfl ?_) (every_map_token _)
    obtain ⟨hword, -, ⟨hdetail, rfl⟩ | ⟨-, rfl⟩⟩ := modifierLength?_eq_some.mp hn
    · -- a word with its detail in parentheses
      obtain ⟨t, ts, rfl⟩ := ofHead_seesModifierWord.exists_cons hword
      rw [seesModifierWord, Bool.and_eq_true] at hword
      rw [seesDetail, Bool.and_eq_true, Bool.and_eq_true, Bool.and_eq_true] at hdetail
      obtain ⟨⟨⟨-, hopen⟩, hset⟩, hclose⟩ := hdetail
      obtain ⟨u, ts, rfl⟩ : ∃ u us, ts = u :: us := exists_cons_of_ne_nil (by rintro rfl; cases hopen)
      obtain ⟨v, ts, rfl⟩ : ∃ v vs, ts = v :: vs := exists_cons_of_ne_nil (by rintro rfl; cases hset)
      obtain ⟨w, ts, rfl⟩ : ∃ w ws, ts = w :: ws := exists_cons_of_ne_nil (by rintro rfl; cases hclose)
      have hu : u.text = "(" := by simpa [textAt] using hopen
      have hw : w.text = ")" := by simpa [textAt] using hclose
      refine .inr ⟨[.token t, .token u, .token v], [.token w], rfl, ⟨[.token t, .token u], [.token v], rfl,
        ⟨[.token t], [.token u], rfl, ⟨t, rfl, htail.mem (by simp), hword.1⟩, u, rfl,
        htail.mem (by simp), ?_⟩, v, rfl, htail.mem (by simp), hset⟩, w, rfl, htail.mem (by simp), ?_⟩
      · simp [TokenClass.holds, hu]
      · simp [TokenClass.holds, hw]
    · obtain ⟨t, ts, rfl⟩ := ofHead_seesModifierWord.exists_cons hword
      rw [seesModifierWord, Bool.and_eq_true] at hword
      exact .inl ⟨t, rfl, htail.mem mem_cons_self, hword.1⟩

/-- A declaration of this kind begins with the tokens. -/
def Begun (kind : NodeKind) (ts : List Token) : Prop :=
  ∃ start, declarationStart? ts = some start ∧ declarationKind (textAt 0 start) = kind

/-- Attributes, modifiers and the keyword that was searched for. -/
theorem fits_introducer (kind : NodeKind) : Reads all P (Begun kind) (introduced kind) introducer where
  keeps := lawful_introducer.keeps
  fits ts f rest htail hin hok := by
    have hmodifiers : Reads all P Anywhere (.node [.modifierList]) modifierList :=
      (((fits_declModifier hP).many fun ts hask f rest hok => ⟨⟨_, lawful_declModifier.keeps hok⟩,
        length_lt_of_declModifier hask hok⟩).node (hP.plain .modifierList rfl)).forget
    have hfront : Reads all P Anywhere (opt (.node [.attributeList]) ++ opt (.node [.modifierList]))
        (optional (seesKind .atSign) attributeList ++ optional isModifier modifierList) :=
      (fits_attributes hP).seq (hmodifiers.anywhere).optional
    obtain ⟨f₁, mid, f₂, h₁, h₂, rfl⟩ := seq_eq_ok hok
    obtain ⟨hmatch, -, hevery⟩ := hfront.fits htail trivial h₁
    obtain ⟨g, between, g', hattributes, hlist, rfl⟩ := seq_eq_ok h₁
    obtain ⟨start, hstart, hkind⟩ := hin
    rw [declarationStart?_of_optional hattributes hlist] at hstart
    split at hstart
    · next hkeyword =>
      cases hstart
      rw [seesDeclarationKeyword, Bool.and_eq_true, Bool.and_eq_true] at hkeyword
      obtain ⟨t, mid, rfl⟩ := ofHead_seesWord.exists_cons hkeyword.1.1
      have hlisted : t.text ∈ keywordsOf kind := by
        refine mem_filter.mpr ⟨by simpa [textAt] using hkeyword.1.2, ?_⟩
        rw [← hkind]
        exact beq_self_eq_true _
      cases h₂
      have htail' := htail.rest hfront.keeps h₁
      refine ⟨⟨_, _, rfl, hmatch, t, rfl, htail'.mem mem_cons_self, ?_⟩, trivial, fun u hu => ?_⟩
      · simpa [TokenClass.holds] using hlisted
      · rcases mem_append.mp hu with hu | hu
        · exact hevery u hu
        · exact every_map_token [t] u hu
    · cases hstart

/-- A kind, and a path of names. -/
theorem fits_importRest : Reads all P pre (declared .importDecl) importRest := by
  have hkind : Reads all P (Asked fun ts => importKinds.contains (textAt 0 ts) && isWordAt 1 ts)
      (.token (.text importKinds)) bump := by
    refine fits_bump fun ts hin => ?_
    obtain ⟨hkind, hword⟩ := Bool.and_eq_true_iff.mp hin
    obtain ⟨t, u, rest, rfl, -⟩ := exists_cons_cons_of_isWordAt hword
    exact ⟨t, u :: rest, rfl, hkind⟩
  have hpart : Reads all P (Asked fun ts => sees "." ts && (isWordAt 1 ts || ts[1]?.any (·.kind == .punct)))
      (mark "." ++ .token .any) (bumps 2) := by
    refine fits_dotted fun ts hin => ?_
    match ts, Bool.and_eq_true_iff.mp hin with
    | t :: u :: rest, hdot => exact ⟨t, u, rest, rfl, by simpa [sees] using hdot.1, rfl⟩
  exact hkind.optional.seq (((fits_expectWord _).seq hpart.repeated).node (hP.plain .importPath rfl))

/-- An operator, its groups behind `:`, and a block. -/
theorem fits_operatorRest : Reads all P pre (declared .operatorDecl) operatorRest := by
  have hgroup : Reads all P (Asked (sees ",")) (mark "," ++ word) (bump ++ expectWord "precedence group") :=
    (fits_mark ",").seq (fits_expectWord _)
  have hgroups := (((fits_mark ":").seq (fits_expectWord "precedence group")).seq hgroup.repeated).node
    (hP.plain .operatorPrecedence rfl)
  exact ((fits_functionName hP).seq hgroups.optional).seq
    ((fits_group_sees (by decide)).node (hP.plain .opaqueBlock rfl)).optional

theorem fits_precedenceGroupRest : Reads all P pre (declared .precedenceGroupDecl) precedenceGroupRest :=
  (fits_name hP).seq ((Fits.require _ (fits_group_sees (by decide)).asked).node (hP.plain .opaqueBlock rfl))

variable (htype : Reads all P Anywhere aType type) (hlaw : Lawful type) (hreads : Consumes type)
include htype

theorem fits_inheritanceClause : Reads all P pre (opt (.node [.inheritanceClause]))
    (optional (sees ":") (inheritanceClause type)) :=
  (((fits_mark ":").seq (htype.chain (hP.plain .inheritedType rfl))).node
    (hP.plain .inheritanceClause rfl)).optional

theorem fits_typeInitializer : Reads all P pre (.node [.typeInitializer]) (typeInitializer type) :=
  (fits_expect "=").clause hP htype rfl rfl rfl rfl

/-- Attributes, one or two names, a type, `...` and a value. -/
theorem fits_functionParameter :
    Reads all P pre (.node [.functionParameter]) (functionParameter type) := by
  have hnames : Reads all P pre (opt (.node [.attributeList]) ++ word ++ opt word ++ mark ":")
      (optional (seesKind .atSign) attributeList ++ expectWord "parameter name" ++ optional seesWord bump ++
        expect ":") :=
    (((fits_attributes hP).seq (fits_expectWord _)).seq fits_word.optional).seq (fits_expect ":")
  have htypes := ((typesBy_inner htype).after hnames rfl).before (hnames.seq htype) (fits_elementRest hP) rfl
  exact Fits.holder ((hnames.seq htype).seq (fits_elementRest hP)) hP rfl htypes fun _ => rfl

/-- A pattern, a type, a value and accessors. -/
theorem fits_patternBinding : Reads all P pre (.node [.patternBinding]) (patternBinding type) := by
  have hpattern : Reads all P pre (.node [.pattern])
      (node .pattern (either (sees "(") group (expectWord "pattern"))) :=
    ((fits_group_sees (by decide)).asked.either (fits_expectWord _)).node (hP.plain .pattern rfl)
  have hclause := (fits_mark ":").clause hP htype (show typeClause.holdsType = true from rfl) rfl rfl rfl
  exact (((hpattern.seq hclause.optional).seq (fits_initializerClause hP).optional).seq
    (fits_accessorBlock hP)).node (hP.plain .patternBinding rfl)

include hlaw

/-- Parameters between `<` and `>`. -/
theorem fits_genericParameterClause : Reads all P pre (opt (.node [.genericParameterClause]))
    (optional (sees "<") (genericParameterClause type)) := by
  have heach : Reads all P (Asked fun ts => sees "each" ts && isWordAt 1 ts) (mark "each") bump := by
    refine (fits_mark "each").given fun ts hin => ?_
    exact (Bool.and_eq_true_iff.mp hin).1
  have hparameter : Reads all P Anywhere (.node [.genericParameter]) (genericParameter type) :=
    (((heach.optional.seq (fits_expectWord _)).seq ((fits_mark ":").seq htype).optional).seq
      (fits_separator ">" _)).node (hP.plain .genericParameter rfl)
  exact (((fits_mark "<").seq
    (hparameter.entries (consumes_genericParameter hlaw) (lawful_genericParameter hlaw)
    ">" _)).seq (fits_mark ">")).node (hP.plain .genericParameterClause rfl) |>.optional

/-- Generic parameters, a signature and requirements. -/
theorem fits_signatureRest : Reads all P pre signature (signatureRest type) := by
  have hparameters : Reads all P Anywhere (.node [.parameterClause]) (parameterClause type) :=
    (((fits_expect "(").seq ((fits_functionParameter hP htype).entries (consumes_functionParameter hlaw)
      (lawful_functionParameter hlaw) ")" _)).seq (fits_mark ")")).node (hP.plain .parameterClause rfl)
  have hresult := (fits_kind .arrow).clause hP htype (show returnClause.holdsType = true from rfl) rfl rfl rfl
  have hsignature : Reads all P Anywhere (.node [.functionSignature]) (functionSignature type) :=
    ((hparameters.seq (fits_effectSpecifiers hP).optional).seq hresult.optional).node
      (hP.plain .functionSignature rfl)
  exact ((fits_genericParameterClause hP htype hlaw).seq hsignature).seq (fits_whereClause hP)

omit hlaw in
theorem fits_variableRest : Reads all P pre (declared .variableDecl) (variableRest type) :=
  (fits_patternBinding hP htype).seq (Fits.repeated ((fits_mark ",").seq (fits_patternBinding hP htype)))

theorem fits_typealiasRest : Reads all P pre (declared .typealiasDecl) (typealiasRest type) :=
  (((fits_name hP).seq (fits_genericParameterClause hP htype hlaw)).seq (fits_typeInitializer hP htype)).seq
    (fits_whereClause hP)

omit hlaw in
theorem fits_associatedTypeRest :
    Reads all P pre (declared .associatedTypeDecl) (associatedTypeRest type) :=
  (((fits_name hP).seq (fits_inheritanceClause hP htype)).seq (fits_typeInitializer hP htype).optional).seq
    (fits_whereClause hP)

include hreads

/-- Cases with commas, each with parameters or a value. -/
theorem fits_enumCaseRest : Reads all P pre (declared .enumCaseDecl) (enumCaseRest type) := by
  have hvalues := (((fits_mark "(").seq ((fits_tupleElement hP htype (.inr rfl)).entries
    (consumes_tupleElement hlaw hreads _) (lawful_tupleElement hlaw _) ")" "')'")).seq (fits_mark ")")).node
    (hP.plain .enumCaseParameterClause rfl)
  have helement {pre : List Token → Prop} :
      Reads all P pre (.node [.enumCaseElement]) (enumCaseElement type) :=
    (((fits_name hP).seq hvalues.optional).seq (fits_initializerClause hP).optional).node
      (hP.plain .enumCaseElement rfl)
  exact helement.seq (Fits.repeated ((fits_mark ",").seq helement))

end

/-! ## Items -/

section

variable {all : List Token} {P : NodeKind → List Tree → Prop} {pre : List Token → Prop} {type item : Rule}
  (hP : Admits all type P) (htype : Reads all P Anywhere aType type) (hlaw : Lawful type)
  (hreads : Consumes type) (hitem : Reads all P Anywhere anItem item) (hlaw' : Lawful item)
  (hreads' : Consumes item)
include hP

theorem fits_ifConfigCondition : Reads all P pre (.node [.ifConfigCondition]) ifConfigCondition := by
  have hhead : OfHead fun ts => !(seesEnd ts || seesNewline ts) := OfHead.not ⟨_, fun _ => rfl⟩
  have hany : Reads all P (Asked fun ts => !(seesEnd ts || seesNewline ts)) (.token .any) bump :=
    fits_bump_head hhead fun _ _ _ => rfl
  exact Fits.require _ ((hany.seq hany.repeated).node (hP.plain .ifConfigCondition rfl)).asked

theorem fits_statement : Reads all P pre (.node [.statement]) statement := by
  have hrun {pre : List Token → Prop} : Reads all P pre (.run false) statementRun :=
    fits_run false lawful_statementRun.keeps fun _ => rfl
  exact Fits.require _ (hrun.node (hP.plain .statement rfl))

include hitem hlaw' hreads'

/-- Items between braces. -/
theorem fits_itemBlock {kind : NodeKind} (hkind : kind.isPlain = true)
    (hlayout : childLayout kind = mark "\x7b" ++ items ++ mark "\x7d") :
    Reads all P pre (.node [kind]) (itemBlock item kind) :=
  (((fits_expect "\x7b").seq (hitem.entries hreads' hlaw' "\x7d" _)).seq (fits_mark "\x7d")).node
    fun _ hmatch => hP.plain kind hkind (hlayout ▸ hmatch)

theorem fits_body : Reads all P pre (opt (.node [.codeBlock])) (body item) :=
  (fits_itemBlock hP hitem hlaw' hreads' rfl rfl).optional

omit hP in
theorem fits_clauseItems : Reads all P Anywhere items (many (fun ts => !seesClauseEnd ts)
    (require (fun ts => !(seesEnd ts || sees "\x7d" ts)) "'#endif'" item)) :=
  (Fits.many (Fits.require _ hitem.anywhere) fun _ _ _ _ hok =>
    ⟨⟨_, hlaw'.keeps.either (keeps_fail _) _ hok⟩, length_lt_of_clauseItem hreads' hok⟩).forget

/-- The first clause has a condition. -/
theorem fits_ifClause :
    Reads all P (Asked (sees "#if")) (.filled .ifConfigClause ifClause) (ifConfigClause item) := by
  have hno : ∀ ⦃ts⦄, Asked (sees "#if") ts → sees "#else" ts = false := by
    intro ts hin
    obtain ⟨t, rest, rfl⟩ := (ofHead_sees "#if").exists_cons hin
    have htext : t.text = "#if" := by simpa [Asked, sees] using hin
    simp [sees, htext]
  have hdirective : Reads all P (Asked (sees "#if")) (mark "#if" ++ .node [.ifConfigCondition])
      (either (sees "#else") bump (bump ++ ifConfigCondition)) :=
    Fits.either_right keeps_bump hno ((fits_mark "#if").seq (fits_ifConfigCondition hP))
  refine (hdirective.seq (fits_clauseItems hitem hlaw' hreads')).filled fun cs hmatch =>
    hP.plain .ifConfigClause rfl ?_
  obtain ⟨f, g, rfl, ⟨f₁, f₂, rfl, ⟨t, rfl, hlex, htext⟩, hcondition⟩, hg⟩ := hmatch
  exact ⟨_, g, rfl, .inr ⟨_, f₂, rfl, ⟨t, rfl, hlex, by simp_all [TokenClass.holds]⟩, hcondition⟩, hg⟩

/-- `#elseif` with a condition, or `#else`. -/
theorem fits_otherClause : Reads all P (Asked fun ts => seesClauseEnd ts && !sees "#endif" ts)
    (.node [.ifConfigClause]) (ifConfigClause item) := by
  have hdirective : Fits all P
      (fun ts => Asked (fun ts => seesClauseEnd ts && !sees "#endif" ts) ts ∧ Refused (sees "#else") ts)
      (.token (.text ["#if", "#elseif"])) Anywhere bump := by
    refine fits_bump fun ts hin => ?_
    obtain ⟨hend, helse⟩ := hin
    obtain ⟨hend, hendif⟩ := Bool.and_eq_true_iff.mp hend
    rw [Refused] at helse
    have hseen : sees "#elseif" ts = true := by
      simpa [seesClauseEnd, helse, Bool.not_eq_true' _ ▸ hendif] using hend
    obtain ⟨t, rest, rfl⟩ := (ofHead_sees "#elseif").exists_cons hseen
    have htext : t.text = "#elseif" := by simpa [sees] using hseen
    exact ⟨t, rest, rfl, by simp [TokenClass.holds, htext]⟩
  exact (((fits_mark "#else").asked.either (hdirective.seq (fits_ifConfigCondition hP))).seq
    (fits_clauseItems hitem hlaw' hreads')).node (hP.plain .ifConfigClause rfl)

/-- `#if`, the other clauses and `#endif`. -/
theorem fits_ifConfig : Reads all P (Asked (sees "#if")) (childLayout .ifConfigDecl) (ifConfigClause item ++
    many (fun ts => seesClauseEnd ts && !sees "#endif" ts) (ifConfigClause item) ++ bump) := by
  have hmore : Reads all P Anywhere (star (.node [.ifConfigClause]))
      (many (fun ts => seesClauseEnd ts && !sees "#endif" ts) (ifConfigClause item)) :=
    (fits_otherClause hP hitem hlaw' hreads').repeated
  have hclauses : Fits all P (Asked (sees "#if"))
      (Layout.filled .ifConfigClause ifClause ++ Layout.star (.node [.ifConfigClause]))
        (Asked (sees "#endif"))
      (ifConfigClause item ++ many (fun ts => seesClauseEnd ts && !sees "#endif" ts) (ifConfigClause item)) :=
    ((fits_ifClause hP hitem hlaw' hreads').seq hmore).leaving fun _ _ _ _ _ hok =>
      sees_of_clauses hreads' hlaw' hok
  exact hclauses.seq (fits_mark "#endif")

include htype hlaw

theorem fits_containerRest : Reads all P pre container (containerRest type item) :=
  (((fits_genericParameterClause hP htype hlaw).seq (fits_inheritanceClause hP htype)).seq
    (fits_whereClause hP)).seq
    (fits_itemBlock hP hitem hlaw' hreads' rfl rfl)

theorem fits_initializerRest : Reads all P pre (declared .initializerDecl) (initializerRest type item) := by
  have hfailable : Reads all P (Asked fun ts => seesAdjacent "?" ts || seesAdjacent "!" ts)
      (.token (.text ["?", "!"])) bump := by
    refine fits_bump_head ((ofHead_seesAdjacent "?").or (ofHead_seesAdjacent "!")) fun t ts hask => ?_
    have hask' : (t.text == "?" && t.isAdjacent || t.text == "!" && t.isAdjacent) = true := hask
    rw [← Bool.and_or_distrib_right, Bool.and_eq_true] at hask'
    simpa [TokenClass.holds] using hask'.1
  exact (hfailable.optional.seq (fits_signatureRest hP htype hlaw)).seq (fits_body hP hitem hlaw' hreads')

include hreads

/-- By cases on what the keyword declares. -/
theorem fits_declarationRest (keyword : String) : Reads all P pre (declared (declarationKind keyword))
    (declarationRest type item (declarationKind keyword)) := by
  have hcontainer {pre : List Token → Prop} : Reads all P pre container (containerRest type item) :=
    fits_containerRest hP htype hlaw hitem hlaw' hreads'
  have hsignature {pre : List Token → Prop} : Reads all P pre signature (signatureRest type) :=
    fits_signatureRest hP htype hlaw
  have hbody {pre : List Token → Prop} : Reads all P pre (opt (.node [.codeBlock])) (body item) :=
    fits_body hP hitem hlaw' hreads'
  unfold declarationKind
  split
  · exact fits_importRest hP
  · exact (fits_name hP).seq hcontainer
  · exact (fits_name hP).seq hcontainer
  · exact (fits_name hP).seq hcontainer
  · exact (fits_name hP).seq hcontainer
  · exact (fits_name hP).seq hcontainer
  · exact htype.anywhere.seq hcontainer
  · exact ((fits_functionName hP).seq hsignature).seq hbody
  · exact fits_initializerRest hP htype hlaw hitem hlaw' hreads'
  · exact hbody
  · exact hsignature.seq (fits_accessorBlock hP)
  · exact fits_variableRest hP htype
  · exact fits_variableRest hP htype
  · exact fits_typealiasRest hP htype hlaw
  · exact fits_associatedTypeRest hP htype
  · exact fits_enumCaseRest hP htype hlaw hreads
  · exact fits_operatorRest hP
  · exact fits_precedenceGroupRest hP

omit hP htype hlaw hreads hitem hlaw' hreads' in
/-- A declaration is its introduction and its rest. -/
theorem childLayout_declarationKind (keyword : String) : declarationKind keyword ∈ itemKinds ∧
    childLayout (declarationKind keyword) = introduced (declarationKind keyword) ++
      declared (declarationKind keyword) := by
  unfold declarationKind
  split <;> exact ⟨by decide, rfl⟩

variable (hdecl : ∀ ⦃ts kind cs rest⦄, kind.isDecl = true → Token.Tail all ts →
  itemBody type item ts = .ok ([.node kind cs], rest) → (childLayout kind).Matches all cs → P kind cs)
include hdecl

/-- A `;`, a conditional block, a declaration or a statement. -/
theorem fits_itemBody : Reads all P Anywhere anItem (itemBody type item) where
  keeps := (lawful_itemBody hlaw hlaw').keeps
  fits ts f rest htail _ hok := by
    have hitself := hok
    -- a declaration that is read from here is a node of one of the kinds of item
    have hnode {kind : NodeKind} {pre : List Token → Prop} {p : Rule} (hkind : kind.isDecl = true)
        (hmem : kind ∈ itemKinds) (hp : Reads all P pre (childLayout kind) p) (hin : pre ts)
        (hok : node kind p ts = .ok (f, rest)) : anItem.Matches all f ∧ Anywhere rest ∧
          ∀ u ∈ f, u.Every P := by
      obtain ⟨cs, hcs, rfl⟩ := node_eq_ok hok
      obtain ⟨hmatch, -, hevery⟩ := hp.fits htail hin hcs
      refine ⟨.inr ⟨kind, hmem, cs, rfl⟩, trivial, fun u hu => ?_⟩
      cases mem_singleton.mp hu
      exact .node (hdecl hkind htail hitself hmatch) hevery
    cases hsemi : sees ";" ts with
    | true =>
      rw [itemBody_semicolon hsemi] at hok
      obtain ⟨hmatch, hafter⟩ := (fits_mark ";").fits htail hsemi hok
      exact ⟨.inl hmatch, hafter⟩
    | false =>
      cases hif : sees "#if" ts with
      | true =>
        rw [itemBody_ifConfig hsemi hif] at hok
        exact hnode rfl (by decide) (fits_ifConfig hP hitem hlaw' hreads') hif hok
      | false =>
        cases hstart : declarationStart? ts with
        | some start =>
          rw [itemBody_declaration hsemi hif hstart] at hok
          obtain ⟨hmem, hlayout⟩ := childLayout_declarationKind (textAt 0 start)
          have hdeclaration := (fits_introducer hP (declarationKind (textAt 0 start))).seq
            (fits_declarationRest hP htype hlaw hreads hitem hlaw' hreads' (textAt 0 start))
          exact hnode (isDecl_declarationKind _) hmem (hlayout ▸ hdeclaration) ⟨start, hstart, rfl⟩ hok
        | none =>
          rw [itemBody_statement hsemi hif hstart] at hok
          have hstatement : Reads all P Anywhere (.node [.statement]) statement := fits_statement hP
          obtain ⟨hmatch, hafter⟩ :=
            (hstatement.oneOf (show NodeKind.statement ∈ itemKinds by decide)).fits htail
            trivial hok
          exact ⟨.inr hmatch, hafter⟩

end

/-! ## Whole texts -/

/-- The children of a node have the layout of its kind; an element was read by its rule, within the
nesting limit. -/
def LaidOut (all : List Token) (kind : NodeKind) (cs : List Tree) : Prop :=
  (childLayout kind).Matches all cs ∧
    (kind.isElement = true → ∃ n < nestingLimit, ∃ ts rest, Token.Tail all ts ∧
      element (type n) kind ts = .ok ([.node kind cs], rest))

/-- All that is known of a node from how it was read, if types have so many levels to spare. -/
structure Traced (all : List Token) (levels : Nat) (kind : NodeKind) (cs : List Tree) : Prop where
  laidOut : LaidOut all kind cs
  functionType : kind = .functionType → ∃ n < nestingLimit, ∃ ts rest, Token.Tail all ts ∧
    sees "(" ts = true ∧
    parenType (type n) ts = .ok ([.node kind cs], rest)
  declaration : kind.isDecl = true → ∃ n ≤ nestingLimit, ∃ ts rest, Token.Tail all ts ∧
    item n ts = .ok ([.node kind cs], rest)
  holds : Tree.HoldsWithin levels kind cs

section

variable {all : List Token} {n levels : Nat} {kind : NodeKind} {cs : List Tree}

/-- What is traced was read within the limit. -/
theorem Traced.original (h : Traced all levels kind cs) (hlevels : levels ≤ nestingLimit) :
    Tree.Original kind cs where
  functionType hkind := by
    obtain ⟨n, hn, ts, rest, htail, hread⟩ := h.functionType hkind
    exact ⟨n, hn, ts, rest, fun _ ht => htail.mem ht, hread⟩
  declaration hkind := by
    obtain ⟨n, hn, ts, rest, htail, hread⟩ := h.declaration hkind
    exact ⟨n, hn, ts, rest, fun _ ht => htail.mem ht, hread⟩
  holder hkind k ds hmem htype := by
    obtain ⟨n, hn, hread⟩ := h.holds hkind hmem htype
    exact ⟨n, Nat.le_trans hn hlevels, hread⟩
  list hkind k ds hmem := by
    have hkinds : (childLayout kind).kinds.all holdsType = true := by
      cases kind <;> first | rfl | cases hkind
    exact all_eq_true.mp hkinds k (mem_kinds h.laidOut.1 hmem)

theorem laidOut_of_not_holdsType (hkind : kind.holdsType = false) (h : (childLayout kind).Matches all cs) :
    LaidOut all kind cs := by
  refine ⟨h, fun helement => ?_⟩
  rw [holdsType_of_isElement helement] at hkind
  cases hkind

theorem traced_of_isPlain (hkind : kind.isPlain = true) (h : (childLayout kind).Matches all cs) :
    Traced all levels kind cs := by
  obtain ⟨hfunction, hdecl, hholds⟩ := of_isPlain hkind
  exact ⟨laidOut_of_not_holdsType hholds h, fun heq => absurd heq hfunction, by simp [hdecl],
    by simp [Tree.HoldsWithin, hholds]⟩

/-- The types of a node that were read by the rule for types were read with the levels of that rule. -/
theorem holdsWithin_of_typesBy (hn : n ≤ levels) (h : ∀ ⦃k ds⦄, .node k ds ∈ cs →
    IfType (fun u => ∃ us left, Token.Tail all us ∧ type n us = .ok ([u], left)) k ds) :
    Tree.HoldsWithin levels kind cs := by
  intro _ k ds hmem htype
  obtain ⟨us, left, htail, hok⟩ := h hmem htype
  exact ⟨n, hn, us, left, fun _ ht => htail.mem ht, hok⟩

/-- `Traced` follows from what the rules read. -/
theorem admits_traced (hn : n ≤ levels) (hlimit : n < nestingLimit) :
    Admits all (type n) (Traced all levels) where
  plain _ hkind _ hmatch := traced_of_isPlain hkind hmatch
  holder kind ts cs rest hkind htail hrule htypes hmatch := by
    obtain ⟨hfunction, hdecl⟩ := of_holdsType hkind
    exact ⟨⟨hmatch, fun helement => ⟨n, hlimit, ts, rest, htail, hrule helement⟩⟩,
      fun heq => absurd heq hfunction, by simp [hdecl], holdsWithin_of_typesBy hn htypes⟩
  functionType ts cs rest htail hsees hok hmatch := by
    refine ⟨laidOut_of_not_holdsType rfl hmatch, fun _ => ⟨n, hlimit, ts, rest, htail, hsees, hok⟩, ?_, ?_⟩
    all_goals
      intro hkind
      cases hkind

/-- **Types fit the schema** at every nesting budget. -/
theorem fits_type (hn : n ≤ levels) (hlimit : n ≤ nestingLimit) :
    Reads all (Traced all levels) Anywhere aType (type n) := by
  induction n with
  | zero => exact fits_tooDeep
  | succ n ih =>
    exact fits_typeBody (admits_traced (Nat.le_of_succ_le hn) hlimit)
      (ih (Nat.le_of_succ_le hn) (Nat.le_of_succ_le hlimit)) (lawful_type n) (consumes_type n)

/-- **Items fit the schema** at every nesting budget; their types have a level less to spare. -/
theorem fits_item (hn : n ≤ levels + 1) (hlimit : n ≤ nestingLimit) :
    Reads all (Traced all levels) Anywhere anItem (item n) := by
  induction n with
  | zero => exact fits_tooDeep
  | succ n ih =>
    have hlower : n ≤ levels := Nat.le_of_succ_le_succ hn
    have hinner : n ≤ nestingLimit := Nat.le_of_succ_le hlimit
    refine fits_itemBody (admits_traced hlower hlimit) (fits_type hlower hinner)
      (lawful_type n) (consumes_type n)
      (ih (Nat.le_succ_of_le hlower) hinner) (lawful_item n) (consumes_item n) ?_
    intro ts kind cs rest hkind htail hok hmatch
    obtain ⟨hfunction, hholds⟩ := of_isDecl hkind
    exact ⟨laidOut_of_not_holdsType hholds hmatch, fun heq => absurd heq hfunction,
      fun _ => ⟨n + 1, hlimit, ts, rest, htail, hok⟩, by simp [Tree.HoldsWithin, hholds]⟩

end

/-- What is read as a type is one node, of a type. -/
theorem exists_isType_of_type {n : Nat} (hn : n ≤ nestingLimit) {ts rest : List Token} {f : List Tree}
    (hlex : ∀ t ∈ ts, t.Lexical) (h : type n ts = .ok (f, rest)) :
    ∃ k ds, f = [.node k ds] ∧ k.isType = true := by
  have htypes : ∀ k ∈ typeKinds, k.isType = true := by decide
  have htail : Token.Tail ts ts := ⟨hlex, suffix_refl ts⟩
  obtain ⟨⟨k, hk, ds, rfl⟩, -⟩ := (fits_type (Nat.le_refl n) hn).fits htail trivial h
  exact ⟨k, ds, rfl, htypes k hk⟩

end Rule

/-- A rule for whole texts gives a tree of traced nodes. -/
theorem every_traced {root : NodeKind} {levels : Nat} {rule : Rule} (hlaw : rule.Lawful)
    (hrest : ∀ {ts trees rest}, rule ts = .ok (trees, rest) → rest = [])
    (hrule : ∀ all, (Rule.node root rule).Fits all (Rule.Traced all levels) Rule.Anywhere
      (.node [root]) Rule.Anywhere)
    (h : parseWith root rule source = .ok tree) : tree.Every (Rule.Traced tree.tokens levels) := by
  obtain ⟨tokens, trees, rest, htokens, hok, rfl⟩ := parseWith_eq_ok h
  cases hrest hok
  have hkeeps := hlaw.keeps hok
  rw [append_nil] at hkeeps
  obtain ⟨-, -, hevery⟩ := (hrule tokens).fits ⟨lexical_of_tokensFrom htokens, suffix_refl _⟩ trivial
    (Rule.node_ok hok)
  rw [Tree.tokens_node, hkeeps]
  exact hevery _ (mem_singleton_self _)

open Rule Layout in
/-- Every node of the tree of a source is traced, with a level less to spare for its types. -/
theorem traced_of_parseSource (h : parseSource source = .ok tree) :
    tree.Every (Traced tree.tokens (nestingLimit - 1)) := by
  refine every_traced lawful_sourceItems rest_of_sourceItems (fun all => ?_) h
  have hitem : Reads all (Traced all (nestingLimit - 1)) Anywhere anItem (item nestingLimit) :=
    fits_item (Nat.le_refl _) (Nat.le_refl _)
  have hitems : Reads all (Traced all (nestingLimit - 1)) Anywhere (childLayout .sourceFile) sourceItems :=
    hitem.anywhere.repeated
  exact hitems.node fun _ hmatch => traced_of_isPlain rfl hmatch

open Rule Layout in
/-- Every node of the tree of a type is traced. -/
theorem traced_of_parseType (h : parseType source = .ok tree) :
    tree.Every (Traced tree.tokens nestingLimit) := by
  refine every_traced lawful_soleType rest_of_soleType (fun all => ?_) h
  have htype : Reads all (Traced all nestingLimit) Anywhere aType (type nestingLimit) :=
    fits_type (Nat.le_refl _) (Nat.le_refl _)
  have hellipsis : Reads all (Traced all nestingLimit) Anywhere (opt (.token (.kind .ellipsis)))
      (optional (seesKind .ellipsis) bump) := (fits_kind .ellipsis).optional
  have hend : Reads all (Traced all nestingLimit) Anywhere .empty (require seesEnd "end of type" nothing) :=
    Fits.require _ fits_nothing.forget
  have htypes := ((typesBy_inner htype).before htype hellipsis rfl).before (htype.seq hellipsis) hend rfl
  refine ((htype.seq hellipsis).seq hend).node_of fun ts cs rest htail hin hok hmatch => ?_
  refine ⟨⟨hmatch, ?_⟩, ?_, ?_, holdsWithin_of_typesBy (Nat.le_refl _) (htypes htail hin hok)⟩
  all_goals
    intro hkind
    cases hkind

/-- **Every node of an accepted tree has its layout.** -/
theorem laidOut_of_parse (h : parseSource source = .ok tree ∨ parseType source = .ok tree) :
    tree.Every (Rule.LaidOut tree.tokens) := by
  rcases h with h | h
  · exact (traced_of_parseSource h).imp fun _ _ htraced => htraced.laidOut
  · exact (traced_of_parseType h).imp fun _ _ htraced => htraced.laidOut

/-- **The types in a source file** were read with a level to spare. -/
theorem holdsWithin_of_parseSource (h : parseSource source = .ok tree) :
    tree.Every (Tree.HoldsWithin (nestingLimit - 1)) :=
  (traced_of_parseSource h).imp fun _ _ htraced => htraced.holds

end SwiftOutline
