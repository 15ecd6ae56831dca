import SwiftOutline.Descriptor.Labels
import SwiftOutline.Proofs.Grammar.Extend
import SwiftOutline.Proofs.Grammar.SchemaCounts
import SwiftOutline.Proofs.Grammar.TypeText

/-!
# `Parameter` — elements of a list, as they were read

The parameters of a function, the associated values of an enumeration case and the elements of a tuple
are read by different rules. What they say is the same: up to two names, a type, an ellipsis, and a
default value. A `Parameter` has these parts as runs of tokens, with what the rules are known to have
seen: the type was read as one, and so was the value, up to the comma or the parenthesis that ended it.

No type ends in a dot. An ellipsis can therefore be written right behind a type.
-/

namespace SwiftOutline

open SwiftOutline.Tree Token List

/-! ## No type ends in a dot -/

/-- The text does not end in a dot. -/
def Undotted (cs : List Char) : Prop := cs.getLast? ≠ some '.'

theorem getLast?_of_scanEscaped {cs text rest : List Char} (h : scanEscaped cs = some (text, rest)) :
    text.getLast? = some '\x60' := by
  fun_induction scanEscaped cs generalizing text rest with
  | case1 => cases h
  | case2 cs =>
    cases h
    rfl
  | case3 => cases h
  | case4 c cs hback hline ih =>
    obtain ⟨p, hp, he⟩ := Option.map_eq_some_iff.mp h
    cases he
    rw [List.getLast?_cons, ih hp]
    rfl

theorem not_mem_of_takeWhile {cs : List Char} (h : cs.takeWhile isIdentifierPart = cs) : '.' ∉ cs := by
  intro hmem
  have hall : cs.all isIdentifierPart = true := by
    rw [← h]
    exact all_takeWhile
  exact absurd (all_eq_true.mp hall '.' hmem) (by decide)

/-- No word ends in a dot. -/
theorem Token.Lexical.undotted_of_isWord {t : Token} (h : t.Lexical) (hword : t.isWord = true) :
    Undotted t.text.toList := by
  obtain ⟨c, cs, htext, hscan⟩ := h
  rw [htext]
  generalize hl : Lexeme.mk t.kind (c :: cs) [] = l at hscan
  have hkind : t.kind = l.kind := congrArg Lexeme.kind hl
  have hcs : l.text = c :: cs := (congrArg Lexeme.text hl).symm
  rw [isWord, hkind] at hword
  cases scanned_of_scanLexeme hscan with
  | word => exact fun hlast => not_mem_of_takeWhile hcs (mem_of_getLast? hlast)
  | escaped hp =>
    rw [Undotted, ← hcs, List.getLast?_cons, getLast?_of_scanEscaped hp, Option.getD_some]
    decide
  | dollar =>
    intro hlast
    rcases mem_cons.mp (mem_of_getLast? hlast) with hdot | hdot
    · cases hdot
    · exact not_mem_of_takeWhile (List.cons.inj hcs).2 hdot
  | numeral => rcases kind_of_scanNumeral (c :: cs) with hk | hk <;> simp [hk] at hword
  | string => cases hword
  | pound hl => rcases kind_of_scanPound hl with hk | hk | hk <;> simp [hk] at hword
  | sign _ hl => rcases kind_of_scanPunct hl with hk | hk | hk | hk | hk <;> simp [hk] at hword

/-- No token of the class ends in a dot. -/
def TokenClass.undotted : TokenClass → Bool
  | .text texts => texts.all fun text => text.toList.getLast? != some '.'
  | .word => true
  | _ => false

theorem TokenClass.undotted_of_holds {c : TokenClass} (h : c.undotted = true) {t : Token} (hlex : t.Lexical)
    (ht : c.holds t = true) : Undotted t.text.toList := by
  cases c with
  | text texts =>
    have hmem : t.text ∈ texts := by simpa [TokenClass.holds] using ht
    exact bne_iff_ne.mp (all_eq_true.mp h t.text hmem)
  | word => exact hlex.undotted_of_isWord ht
  | kind k | operator | any => cases h

/-- Trees of the layout do not end in a dot, if the nodes of the kinds given do not. -/
def Layout.undotted (kinds : NodeKind → Bool) : Layout → Bool
  | empty => true
  | token c => c.undotted
  | node ks => ks.all kinds
  | filled k _ => kinds k
  | group | run _ => false
  | seq a b => b.undotted kinds && (b.solid NodeKind.isSolid || a.undotted kinds)
  | alt a b => a.undotted kinds && b.undotted kinds
  | star a => a.undotted kinds

/-- The last token does not end in a dot. -/
def Token.EndUndotted (ts : List Token) : Prop := ∀ t ∈ ts.getLast?, Undotted t.text.toList

variable {ts all : List Token}

theorem Token.EndUndotted.append {us : List Token} (hus : EndUndotted us) (hts : us = [] → EndUndotted ts) :
    EndUndotted (ts ++ us) := by
  intro t ht
  rw [List.getLast?_append] at ht
  cases hlast : us.getLast? with
  | none =>
    rw [hlast, Option.none_or] at ht
    exact hts (List.getLast?_eq_none_iff.mp hlast) t ht
  | some u =>
    rw [hlast, Option.some_or] at ht
    exact hus t (hlast ▸ ht)

theorem Layout.endUndotted {kinds : NodeKind → Bool} {s : Layout} {f : List Tree} (hmatch : s.Matches all f)
    (hundotted : s.undotted kinds = true) (hevery : ∀ u ∈ f, u.Every (Rule.LaidOut all))
    (hnodes : ∀ k cs, .node k cs ∈ f → kinds k = true → EndUndotted (forestTokens cs)) :
    EndUndotted (forestTokens f) := by
  induction s generalizing f with
  | empty =>
    cases hmatch
    rw [forestTokens_nil]
    nofun
  | token c =>
    obtain ⟨t, rfl, hlex, hc⟩ := hmatch
    rw [forestTokens_singleton, tokens_token]
    intro u hu
    cases hu
    exact c.undotted_of_holds hundotted hlex hc
  | node ks =>
    obtain ⟨k, hk, cs, rfl⟩ := hmatch
    rw [forestTokens_singleton, tokens_node]
    exact hnodes k cs (mem_singleton_self _) (all_eq_true.mp hundotted k hk)
  | filled k s _ =>
    obtain ⟨cs, rfl, -⟩ := hmatch
    rw [forestTokens_singleton, tokens_node]
    exact hnodes k cs (mem_singleton_self _) hundotted
  | group | run _ => cases hundotted
  | seq a b iha ihb =>
    obtain ⟨g, h, rfl, hg, hh⟩ := hmatch
    rw [Layout.undotted, Bool.and_eq_true, Bool.or_eq_true] at hundotted
    rw [forestTokens_append]
    refine (ihb hh hundotted.1 (fun u hu => hevery u (mem_append_right _ hu))
      fun k cs hmem => hnodes k cs (mem_append_right _ hmem)).append fun hnil => ?_
    rcases hundotted.2 with hsolid | hundotted
    · -- the second part has a token
      refine absurd hnil (Layout.forestTokens_ne_nil hh hsolid fun k cs hmem hk => ?_)
      have hne := tokens_ne_nil (hevery _ (mem_append_right _ hmem)) hk
      rwa [tokens_node] at hne
    · exact iha hg hundotted (fun u hu => hevery u (mem_append_left _ hu))
        fun k cs hmem => hnodes k cs (mem_append_left _ hmem)
  | alt a b iha ihb =>
    rw [Layout.undotted, Bool.and_eq_true] at hundotted
    rcases hmatch with hf | hf
    · exact iha hf hundotted.1 hevery hnodes
    · exact ihb hf hundotted.2 hevery hnodes
  | star a iha =>
    obtain ⟨gs, rfl, hgs⟩ := hmatch
    induction gs with
    | nil =>
      rw [flatten_nil, forestTokens_nil]
      nofun
    | cons g gs ih =>
      -- the last round that has a token decides
      rw [flatten_cons] at hevery hnodes ⊢
      rw [forestTokens_append]
      refine (ih (fun g' hg' => hgs g' (mem_cons_of_mem _ hg'))
        (fun u hu => hevery u (mem_append_right _ hu))
        fun k cs hmem => hnodes k cs (mem_append_right _ hmem)).append fun _ => ?_
      exact iha (hgs g mem_cons_self) hundotted (fun u hu => hevery u (mem_append_left _ hu))
        fun k cs hmem => hnodes k cs (mem_append_left _ hmem)

/-- The kinds of node that do not end in a dot. -/
def NodeKind.isUndotted (kind : NodeKind) : Bool := kind.isType || kind == .genericArgumentClause

theorem undotted_childLayout {kind : NodeKind} (h : kind.isUndotted = true) :
    (childLayout kind).undotted NodeKind.isUndotted = true := by
  revert h
  cases kind <;> decide

/-- **No type ends in a dot.** -/
theorem endUndotted_of_isType {u : Tree} (hlaid : u.Every (Rule.LaidOut all))
    (htype : u.kind?.any NodeKind.isUndotted = true) : EndUndotted u.tokens := by
  induction hlaid with
  | token t => cases htype
  | @node kind cs here below ih =>
    rw [tokens_node]
    refine Layout.endUndotted here.1 (undotted_childLayout htype) below fun k ds hmem hk => ?_
    have hbelow := ih _ hmem hk
    rwa [tokens_node] at hbelow

/-- The text of tokens ends as the last of them does. -/
theorem Token.undotted_layout (hts : EndUndotted ts) (hne : ∀ t ∈ ts, t.text ≠ "") (front : List Char)
    (hfront : ts = [] → Undotted front) : Undotted (front ++ layout ts) := by
  induction ts generalizing front with
  | nil =>
    rw [layout, flatMap_nil, append_nil]
    exact hfront rfl
  | cons t ts ih =>
    rw [layout_cons, ← append_assoc, ← append_assoc]
    refine ih (fun u hu => hts u ?_) (fun u hu => hne u (mem_cons_of_mem t hu)) _ fun hnil => ?_
    · rw [List.getLast?_cons, show ts.getLast? = some u from hu]
      rfl
    · subst hnil
      rw [Undotted, List.getLast?_append]
      cases hlast : t.text.toList.getLast? with
      | none =>
        have hnil := List.getLast?_eq_none_iff.mp hlast
        exact absurd (String.toList_injective hnil) (hne t mem_cons_self)
      | some c =>
        rw [Option.some_or, ← hlast]
        exact hts t rfl

theorem Token.undotted_joined (hts : EndUndotted ts) (hne : ∀ t ∈ ts, t.text ≠ "") :
    Undotted (joined ts).toList := by
  cases ts with
  | nil => nofun
  | cons t ts =>
    have h := undotted_layout hts hne [] nofun
    rw [nil_append, layout_cons] at h
    rw [toList_joined]
    intro hlast
    refine h ?_
    rw [List.getLast?_append, hlast, Option.some_or]

/-! ## Elements and what they say -/

/-- The names of an element with the colon behind them. -/
inductive Labelling : List Token → List Token → Prop where
  | none : Labelling [] []
  | named {names : List Token} {colon : Token} (hne : names ≠ []) (hwords :
    ∀ w ∈ names, w.Lexical ∧ w.isWord = true)
    (hcolon : colon.text = ":") : Labelling names (names ++ [colon])

/-- A token with this text, if there is to be one. -/
def Marked (present : Bool) (text : String) (ts : List Token) : Prop :=
  if present then ∃ t, ts = [t] ∧ t.text = text else ts = []

/-- The initializer of a value, if there is one. -/
def Initialized : Option (List Token) → List Tree → Prop
  | none, f => f = []
  | some value, f => ∃ equals, f = [.node .initializerClause [.token equals, .node .expr (value.map .token)]]

/-- The children of an element: attributes, the names, a type, and what follows the type. -/
inductive Carries (names : List Token) (u : Tree) (variadic : Bool) (value : Option (List Token)) :
    List Tree → Prop where
  | mk {attributes initializer : List Tree} {labels dots separator : List Token} {separated : Bool}
    (hattributes : ∀ a ∈ attributes, a.kind? = some .attributeList) (hlabels : Labelling names labels)
    (hu : u.isType = true) (hdots : Marked variadic "..." dots) (hinitializer : Initialized value initializer)
    (hseparator : Marked separated "," separator) :
    Carries names u variadic value (attributes ++ labels.map .token ++ [u] ++
      (dots.map .token ++ initializer ++ separator.map .token))

/-- What an element with these parts says beside its type. -/
def labelsOf (names : List Token) (variadic : Bool) (value : Option (List Token)) : Labels where
  name := (names.map Token.text)[0]?.getD ""
  secondName := (names.map Token.text)[1]?.getD ""
  variadic := variadic
  defaultArgument := value.map joined

/-- No word is a text that is a sign by itself. -/
theorem text_ne_of_isWord {w : Token} (hlex : w.Lexical) (hword : w.isWord = true) {text : String}
    (hsign : (lexicalKind? text).any (fun k => k == .identifier || k == .keyword) = false) :
    w.text ≠ text := by
  rintro rfl
  rw [hlex.lexicalKind?_eq, Option.any_some, show (w.kind == .identifier || w.kind == .keyword) =
    true from hword] at hsign
  cases hsign

theorem Marked.any_text {present : Bool} {text : String} (h : Marked present text ts) (other : String) :
    ts.any (·.text == other) = (present && text == other) := by
  cases present with
  | false =>
    cases (show ts = [] from h)
    rfl
  | true =>
    obtain ⟨t, rfl, htext⟩ := (show ∃ t, ts = [t] ∧ t.text = text from h)
    rw [any_cons, any_nil, Bool.or_false, htext, Bool.true_and]

theorem Labelling.any_text {names labels : List Token} (h : Labelling names labels) :
    labels.any (·.text == ":") = !names.isEmpty ∧ labels.any (·.text == "...") = false := by
  cases h with
  | none => exact ⟨rfl, rfl⟩
  | @named _ colon hne hwords hcolon =>
    have hnone : names.any (·.text == "...") = false := by
      rw [any_eq_false]
      intro w hw heq
      exact text_ne_of_isWord (hwords w hw).1 (hwords w hw).2 rfl (beq_iff_eq.mp heq)
    rw [any_append, any_append, hnone, any_cons, any_nil, any_cons,
      any_nil, hcolon]
    cases names with
    | nil => exact absurd rfl hne
    | cons w ws => exact ⟨Bool.or_true _, rfl⟩

/-- The words before the colon are the names. -/
theorem Labelling.names_eq {names labels : List Token} (h : Labelling names labels) (hne : names ≠ [])
    (more : List Token) : ((labels ++ more).takeWhile (·.text != ":")).filter isWord = names := by
  cases h with
  | none => exact absurd rfl hne
  | @named _ colon _ hwords hcolon =>
    have hpass : ∀ w ∈ names, (w.text != ":") = true := fun w hw =>
      bne_iff_ne.mpr (text_ne_of_isWord (hwords w hw).1 (hwords w hw).2 rfl)
    have hstop : (colon.text != ":") = false := by
      rw [hcolon]
      rfl
    rw [append_assoc, takeWhile_append_of_pos hpass, singleton_append,
      takeWhile_cons, hstop, if_neg Bool.false_ne_true, append_nil]
    exact filter_eq_self.mpr fun w hw => (hwords w hw).2

section

variable {names : List Token} {u : Tree} {variadic : Bool} {value : Option (List Token)} {cs : List Tree}

theorem filterMap_token?_map (ts : List Token) : (ts.map token).filterMap token? = ts := by
  rw [filterMap_map]
  exact filterMap_some

theorem filterMap_token?_of_nodes {f : List Tree} {k : NodeKind} (h : ∀ a ∈ f, a.kind? = some k) :
    f.filterMap token? = [] := by
  rw [filterMap_eq_nil_iff]
  intro a ha
  have hkind := h a ha
  cases a with
  | token t => cases hkind
  | node k' ds => rfl

theorem Initialized.kind {f : List Tree} (h : Initialized value f) :
    ∀ a ∈ f, a.kind? = some .initializerClause := by
  cases value with
  | none =>
    cases (show f = [] from h)
    nofun
  | some v =>
    obtain ⟨equals, rfl⟩ := h
    intro a ha
    cases mem_singleton.mp ha
    rfl

theorem Carries.type (h : Carries names u variadic value cs) (kind : NodeKind) :
    (node kind cs).childType? = some u := by
  cases h with
  | mk hattributes hlabels hu hdots hinitializer hseparator =>
    rw [childType?, children, List.find?_append, List.find?_append, List.find?_append,
      List.find?_eq_none.mpr, Option.none_or, List.find?_eq_none.mpr, Option.none_or, List.find?_cons,
        hu, Option.some_or]
    · intro a ha
      obtain ⟨t, -, rfl⟩ := mem_map.mp ha
      exact Bool.false_ne_true
    · intro a ha
      rw [isType, hattributes a ha]
      exact Bool.false_ne_true

theorem find?_map_token (k : NodeKind) (ts : List Token) : (ts.map token).find? (isKind k) = none := by
  rw [List.find?_eq_none]
  intro a ha
  obtain ⟨t, -, rfl⟩ := mem_map.mp ha
  exact Bool.false_ne_true

/-- The value of an element is the text behind its equals sign. -/
theorem Carries.initializer? (h : Carries names u variadic value cs) (kind : NodeKind) :
    (node kind cs).initializer? = value.map joined := by
  cases h with
  | @mk attributes initializer labels dots separator _ hattributes hlabels hu hdots hinitializer hseparator =>
    have hnone : attributes.find? (isKind .initializerClause) = none := by
      rw [List.find?_eq_none]
      intro a ha
      rw [isKind, hattributes a ha]
      decide
    have htype : [u].find? (isKind .initializerClause) = none := by
      rw [List.find?_eq_none]
      intro a ha
      cases mem_singleton.mp ha
      cases u with
      | token t => cases hu
      | node k ds =>
        intro hkind
        have hk : k = .initializerClause := by simpa [isKind, kind?] using hkind
        subst hk
        cases hu
    have hchild : (node kind (attributes ++ labels.map .token ++ [u] ++
        (dots.map .token ++ initializer ++ separator.map .token))).child? .initializerClause =
        initializer.find? (isKind .initializerClause) := by
      simp only [child?, children, List.find?_append, hnone, htype, find?_map_token,
        Option.none_or, Option.or_none]
    rw [initializer?, hchild]
    cases value with
    | none =>
      cases (show initializer = [] from hinitializer)
      rfl
    | some v =>
      obtain ⟨equals, rfl⟩ := hinitializer
      show some (joined (tokens (.node .expr (v.map .token)))) = some (joined v)
      rw [tokens_node, forestTokens_map_token]

/-- **What an element says beside its type** depends on the texts of its parts alone. -/
theorem Carries.elementLabels (h : Carries names u variadic value cs) (kind : NodeKind) :
    (node kind cs).elementLabels = labelsOf names variadic value := by
  have hvalue := h.initializer? kind
  cases h with
  | @mk attributes initializer labels dots separator separated hattributes hlabels hu hdots
    hinitializer hseparator =>
    generalize hcs : attributes ++ labels.map token ++ [u] ++
      (dots.map .token ++ initializer ++ separator.map .token) = cs at hvalue ⊢
    -- of the children only the labels, the ellipsis and the comma are tokens
    have htokens : (node kind cs).childTokens = labels ++ (dots ++ separator) := by
      have hnode : [u].filterMap token? = [] := by
        cases u with
        | token t => cases hu
        | node k ds => rfl
      rw [childTokens, children, ← hcs]
      simp only [filterMap_append, filterMap_token?_map, filterMap_token?_of_nodes hattributes, hnode,
        filterMap_token?_of_nodes hinitializer.kind, nil_append, append_nil]
    have hcolon : (node kind cs).hasToken ":" = !names.isEmpty := by
      rw [hasToken, htokens, any_append, any_append, hlabels.any_text.1, hdots.any_text,
        hseparator.any_text, show ("..." == ":") = false from rfl,
        show ("," == ":") = false from rfl, Bool.and_false, Bool.and_false, Bool.or_self, Bool.or_false]
    have hdotted : (node kind cs).hasToken "..." = variadic := by
      rw [hasToken, htokens, any_append, any_append, hlabels.any_text.2, hdots.any_text,
        hseparator.any_text, show ("..." == "...") = true from rfl,
        show ("," == "...") = false from rfl, Bool.and_true, Bool.and_false, Bool.or_false, Bool.false_or]
    have hnames : (node kind cs).elementNames = names.map Token.text := by
      rw [elementNames, hcolon, htokens]
      cases names with
      | nil => rfl
      | cons w ws => rw [hlabels.names_eq (cons_ne_nil w ws)]; rfl
    rw [elementLabels, hnames, hdotted, hvalue]
    rfl

end

/-! ## Parameters -/

/-- A parameter as it was read from the tokens `all`: the words in front of the colon, the tokens of the
type, whether an ellipsis follows it, and the tokens of the default value. -/
structure Parameter (all : List Token) where
  names : List Token
  type : List Token
  variadic : Bool
  value : Option (List Token)
  length_names : names.length ≤ 2
  isWord : ∀ w ∈ names, w ∈ all ∧ w.isWord = true
  type_isInfix : type <:+: all
  type_read : ∃ u, Rule.type (nestingLimit - 1) type = .ok ([u], [])
  /-- The type does not look as if it began with labels. -/
  type_unlabelled : names = [] → Rule.elementLabels type = .ok ([], type)
  type_undotted : Undotted (joined type).toList
  /-- The value ends before a comma or a closing parenthesis. -/
  value_read : ∀ v ∈ value, v ≠ [] ∧ ∃ stop, v ++ [stop] <:+: all ∧ (stop.text = "," ∨ stop.text = ")") ∧
    Rule.exprRun (v ++ [stop]) = .ok (v.map .token, [stop])

namespace Rule

open Lookahead

variable {ts rest mid : List Token} {f : List Tree}

theorem optional_eq_ok {ask : Lookahead} {p : Rule} (h : optional ask p ts = .ok (f, rest)) :
    (ask ts = true ∧ p ts = .ok (f, rest)) ∨ (ask ts = false ∧ f = [] ∧ rest = ts) := by
  unfold optional either at h
  split at h
  · next hyes => exact .inl ⟨hyes, h⟩
  · next hno =>
    cases h
    exact .inr ⟨Bool.eq_false_iff.mpr hno, rfl, rfl⟩

theorem require_bump_eq_ok {ask : Lookahead} (hask : ask.OfHead) {what : String}
    (h : require ask what bump ts = .ok (f, rest)) :
    ∃ t, ts = t :: rest ∧ f = [.token t] ∧ ask (t :: rest) = true := by
  unfold require either at h
  split at h
  · next hyes =>
    obtain ⟨t, ts, rfl⟩ := hask.exists_cons hyes
    cases h
    exact ⟨t, rfl, rfl, hyes⟩
  · cases h

/-- The labels of a tuple element, or that it has none. -/
theorem labelling_of_elementLabels (hlex : ∀ t ∈ ts, t.Lexical) (h : elementLabels ts = .ok (f, mid)) :
    ∃ names labels, f = labels.map .token ∧ Labelling names labels ∧ names.length ≤ 2 ∧
      (∀ w ∈ names, w ∈ ts ∧ w.isWord = true) ∧ (names = [] → f = []) := by
  have hnamed {names : List Token} {colon : Token} {rest : List Token} (hts : ts = names ++ colon :: rest)
      (hne : names ≠ []) (hwords : ∀ w ∈ names, w.isWord = true) (hcolon : colon.text = ":") :
      Labelling names (names ++ [colon]) ∧ ∀ w ∈ names, w ∈ ts ∧ w.isWord = true := by
    have hmem : ∀ w ∈ names, w ∈ ts := fun w hw => by
      rw [hts]
      exact mem_append_left _ hw
    exact ⟨.named hne (fun w hw => ⟨hlex w (hmem w hw), hwords w hw⟩) hcolon,
      fun w hw => ⟨hmem w hw, hwords w hw⟩⟩
  unfold elementLabels either at h
  split at h
  · next hask =>
    rw [Bool.and_eq_true] at hask
    obtain ⟨w, colon, rest, rfl, hcolon⟩ := exists_cons_cons_of_textAt (· == ":") rfl hask.2
    cases h
    have hwords : ∀ v ∈ [w], v.isWord = true := fun v hv => by
      cases mem_singleton.mp hv
      exact hask.1
    obtain ⟨hlabels, hmem⟩ := hnamed rfl (cons_ne_nil w []) hwords (beq_iff_eq.mp hcolon)
    exact ⟨[w], _, rfl, hlabels, Nat.le_succ 1, hmem, nofun⟩
  · rcases optional_eq_ok h with ⟨hask, h⟩ | ⟨-, rfl, -⟩
    · simp only [Bool.and_eq_true] at hask
      obtain ⟨⟨hfirst, hsecond⟩, hcolon⟩ := hask
      match ts, hfirst, hsecond, hcolon with
      | w :: v :: colon :: rest, hfirst, hsecond, hcolon =>
        cases h
        have hwords : ∀ x ∈ [w, v], x.isWord = true := fun x hx => by
          rcases mem_cons.mp hx with rfl | hx
          · exact hfirst
          · cases mem_singleton.mp hx
            exact hsecond
        obtain ⟨hlabels, hmem⟩ := hnamed rfl (cons_ne_nil w [v]) hwords (beq_iff_eq.mp hcolon)
        exact ⟨[w, v], _, rfl, hlabels, Nat.le_refl 2, hmem, nofun⟩
    · exact ⟨[], [], rfl, .none, by decide, nofun, fun _ => rfl⟩

/-- The attributes and labels of a function parameter. -/
theorem labelling_of_functionParameter (hlex : ∀ t ∈ ts, t.Lexical)
    (h : (optional (seesKind .atSign) attributeList ++ expectWord "parameter name" ++
      optional seesWord bump ++ expect ":" : Rule) ts = .ok (f, mid)) :
    ∃ attributes names labels, f = attributes ++ labels.map .token ∧
      (∀ a ∈ attributes, a.kind? = some .attributeList) ∧
      Labelling names labels ∧ names.length ≤ 2 ∧ (∀ w ∈ names, w ∈ ts ∧ w.isWord = true) ∧ names ≠ [] := by
  obtain ⟨f₁₂₃, mid₃, f₄, h₁₂₃, h₄, rfl⟩ := seq_eq_ok h
  obtain ⟨f₁₂, mid₂, f₃, h₁₂, h₃, rfl⟩ := seq_eq_ok h₁₂₃
  obtain ⟨f₁, mid₁, f₂, h₁, h₂, rfl⟩ := seq_eq_ok h₁₂
  have hattributes : ∀ a ∈ f₁, a.kind? = some .attributeList := by
    rcases optional_eq_ok h₁ with ⟨-, h₁⟩ | ⟨-, rfl, -⟩
    · obtain ⟨cs, -, rfl⟩ := node_eq_ok h₁
      intro a ha
      cases mem_singleton.mp ha
      rfl
    · nofun
  have hmem : ∀ t ∈ mid₁, t ∈ ts :=
    fun t ht => (lawful_attributeList.optional (natural_seesKind .atSign)).keeps.mem_of_rest h₁ ht
  obtain ⟨w, rfl, rfl, hw⟩ := require_bump_eq_ok ofHead_seesWord h₂
  obtain ⟨colon, rfl, rfl, hcolon⟩ := require_bump_eq_ok (ofHead_sees ":") h₄
  have hlexical : ∀ v ∈ w :: mid₂, v ∈ ts ∧ v.Lexical := fun v hv => ⟨hmem v hv, hlex v (hmem v hv)⟩
  rcases optional_eq_ok h₃ with ⟨hv, h₃⟩ | ⟨-, rfl, rfl⟩
  · obtain ⟨v, mid₂, rfl⟩ := ofHead_seesWord.exists_cons hv
    obtain ⟨rfl, hrest⟩ := bumps_eq_ok h₃
    cases hrest
    have hwords : ∀ x ∈ [w, v], (x ∈ ts ∧ x.Lexical) ∧ x.isWord = true := fun x hx => by
      rcases mem_cons.mp hx with rfl | hx
      · exact ⟨hlexical x (by simp), hw⟩
      · cases mem_singleton.mp hx
        exact ⟨hlexical v (by simp), hv⟩
    refine ⟨f₁, [w, v], [w, v] ++ [colon], by simp, hattributes,
      .named nofun ?_ (beq_iff_eq.mp hcolon), Nat.le_refl 2, ?_, nofun⟩
    · exact fun x hx => ⟨(hwords x hx).1.2, (hwords x hx).2⟩
    · exact fun x hx => ⟨(hwords x hx).1.1, (hwords x hx).2⟩
  · have hwords : ∀ x ∈ [w], (x ∈ ts ∧ x.Lexical) ∧ x.isWord = true := fun x hx => by
      cases mem_singleton.mp hx
      exact ⟨hlexical w (by simp), hw⟩
    refine ⟨f₁, [w], [w] ++ [colon], by simp, hattributes,
      .named nofun ?_ (beq_iff_eq.mp hcolon), Nat.le_succ 1, ?_, nofun⟩
    · exact fun x hx => ⟨(hwords x hx).1.2, (hwords x hx).2⟩
    · exact fun x hx => ⟨(hwords x hx).1.1, (hwords x hx).2⟩

/-- The default value of an element stops before the token that ends the element. -/
theorem exprRun_before {g : List Tree} (h : exprRun ts = .ok (f, mid))
    (hend : either (sees ",") bump (require (sees ")") "',' or ')'" nothing) mid = .ok (g, rest)) :
    ∃ run stop, f = run.map .token ∧ run ++ [stop] <+: ts ∧ (stop.text = "," ∨ stop.text = ")") ∧
      exprRun (run ++ [stop]) = .ok (run.map .token, [stop]) := by
  obtain ⟨rfl, rfl⟩ := split_eq_ok h
  obtain ⟨stop, after, hmid⟩ := exists_cons_of_ne_nil (ne_nil_of_separator hend)
  have hstop : stop.text = "," ∨ stop.text = ")" := by
    have hsees := sees_of_separator hend
    rw [hmid] at hsees
    exact hsees.imp beq_iff_eq.mp beq_iff_eq.mp
  have hsplit : (takeRun true false 0 ts).1 ++ (takeRun true false 0 ts).2 = ts :=
    takeRun_append true false 0 ts
  refine ⟨_, stop, rfl, ⟨after, ?_⟩, hstop, ?_⟩
  · rw [append_assoc, singleton_append, ← hmid]
    exact hsplit
  · -- behind the token that ended it, the run can be cut off
    have hoff : OffBraceHead (takeRun true false 0 ts).2 [stop] := by
      refine ⟨stop, after, [], hmid, rfl, ?_⟩
      rcases hstop with hstop | hstop <;> rw [hstop] <;> decide
    have hcut := takeRun_offBraceHead (show takeRun true false 0 ts = (_, _) from rfl) hoff
    exact run_ok (congrArg Except.ok hcut)

/-- What follows the type of an element. -/
theorem parts_of_elementRest (hlex : ∀ t ∈ ts, t.Lexical) (h : elementRest ts = .ok (f, rest)) :
    ∃ variadic dots value initializer separated separator,
      f = dots.map .token ++ initializer ++ separator.map .token ∧ Marked variadic "..." dots ∧
      Initialized value initializer ∧ Marked separated "," separator ∧
      ∀ v ∈ value, v ≠ [] ∧ ∃ stop, v ++ [stop] <:+: ts ∧ (stop.text = "," ∨ stop.text = ")") ∧
        exprRun (v ++ [stop]) = .ok (v.map .token, [stop]) := by
  obtain ⟨f₁₂, mid₂, f₃, h₁₂, h₃, rfl⟩ := seq_eq_ok h
  obtain ⟨f₁, mid₁, f₂, h₁, h₂, rfl⟩ := seq_eq_ok h₁₂
  obtain ⟨variadic, dots, rfl, hdots, hmid⟩ : ∃ variadic dots, f₁ = dots.map .token ∧
      Marked variadic "..." dots ∧
      mid₁ <:+ ts := by
    rcases optional_eq_ok h₁ with ⟨hsees, h₁⟩ | ⟨-, rfl, rfl⟩
    · obtain ⟨t, ts, rfl⟩ := (ofHead_seesKind .ellipsis).exists_cons hsees
      cases h₁
      have htext : t.text = "..." :=
        (Lexical.text_of_kind (hlex t mem_cons_self)).2 (eq_of_beq hsees)
      exact ⟨true, [t], rfl, ⟨t, rfl, htext⟩, suffix_cons t ts⟩
    · exact ⟨false, [], rfl, rfl, suffix_refl _⟩
  obtain ⟨separated, separator, rfl, hseparator⟩ : ∃ separated separator, f₃ = separator.map .token ∧
      Marked separated "," separator := by
    have h₃' := h₃
    unfold either at h₃'
    split at h₃'
    · next hsees =>
      obtain ⟨t, ts, rfl⟩ := (ofHead_sees ",").exists_cons hsees
      cases h₃'
      exact ⟨true, [t], rfl, t, rfl, beq_iff_eq.mp hsees⟩
    · unfold require either at h₃'
      split at h₃'
      · cases h₃'
        exact ⟨false, [], rfl, rfl⟩
      · cases h₃'
  rcases optional_eq_ok h₂ with ⟨hsees, h₂⟩ | ⟨-, rfl, rfl⟩
  · obtain ⟨cs, hcs, rfl⟩ := node_eq_ok h₂
    obtain ⟨g₁, after, g₂, hbump, hexpr, rfl⟩ := seq_eq_ok hcs
    obtain ⟨equals, mid₁, rfl⟩ := (ofHead_sees "=").exists_cons hsees
    cases hbump
    obtain ⟨ds, hds, rfl⟩ := node_eq_ok hexpr
    obtain ⟨hrun, hne⟩ := nonempty_eq_ok hds
    obtain ⟨run, stop, rfl, hstarts, hstop, hagain⟩ := exprRun_before hrun h₃
    refine ⟨variadic, dots, some run, _, separated, separator, rfl, hdots, ⟨equals, rfl⟩, hseparator, ?_⟩
    intro v hv
    cases hv
    refine ⟨?_, stop, hstarts.isInfix.trans (((suffix_cons equals mid₁).trans hmid).isInfix), hstop,
      hagain⟩
    rintro rfl
    rw [← lawful_exprRun.keeps hrun] at hne
    exact Nat.lt_irrefl _ hne
  · exact ⟨variadic, dots, none, [], separated, separator, rfl, hdots, rfl, hseparator, nofun⟩

/-- The labels of an element of either sort, and what was left behind them. -/
theorem labels_of_element {inner : Rule} {kind : NodeKind} {cs : List Tree} (hlex : ∀ t ∈ ts, t.Lexical)
    (h : element inner kind ts = .ok ([.node kind cs], rest)) :
    ∃ attributes names labels mid f, cs = attributes ++ labels.map .token ++ f ∧
      (∀ a ∈ attributes, a.kind? = some .attributeList) ∧ Labelling names labels ∧ names.length ≤ 2 ∧
      (∀ w ∈ names, w ∈ ts ∧ w.isWord = true) ∧ mid <:+ ts ∧
        (inner ++ elementRest : Rule) mid = .ok (f, rest) ∧
      (names = [] → elementLabels mid = .ok ([], mid)) := by
  unfold element at h
  split at h
  · next hkind =>
    subst hkind
    obtain ⟨cs', hcs, heq⟩ := node_eq_ok h
    cases heq
    obtain ⟨f₁₂, mid₂, f₃, h₁₂, h₃, rfl⟩ := seq_eq_ok hcs
    obtain ⟨f₁, mid₁, f₂, h₁, h₂, rfl⟩ := seq_eq_ok h₁₂
    obtain ⟨attributes, names, labels, rfl, hattributes, hlabels, hlength, hwords, hne⟩ :=
      labelling_of_functionParameter hlex h₁
    have hkeeps := (((lawful_attributeList.optional (natural_seesKind .atSign)).keeps.seq
        (keeps_expectWord "parameter name")).seq
      (keeps_bump.either keeps_nothing seesWord)).seq (keeps_expect ":")
    exact ⟨attributes, names, labels, mid₁, _, by rw [append_assoc], hattributes,
      hlabels, hlength, hwords, ⟨_, hkeeps h₁⟩, seq_ok h₂ h₃, fun hnil => absurd hnil hne⟩
  · obtain ⟨cs', hcs, heq⟩ := node_eq_ok h
    cases heq
    obtain ⟨f₁₂, mid₂, f₃, h₁₂, h₃, rfl⟩ := seq_eq_ok hcs
    obtain ⟨f₁, mid₁, f₂, h₁, h₂, rfl⟩ := seq_eq_ok h₁₂
    obtain ⟨names, labels, hf₁, hlabels, hlength, hwords, hnone⟩ := labelling_of_elementLabels hlex h₁
    have hkeeps := (lawful_elementLabels (K := UnseenIn)).keeps h₁
    refine ⟨[], names, labels, mid₁, f₂ ++ f₃, ?_, nofun, hlabels, hlength, hwords, ⟨_, hkeeps⟩,
      seq_ok h₂ h₃, fun hnil => ?_⟩
    · rw [nil_append, ← hf₁, append_assoc]
    · rw [hnone hnil, forestTokens_nil, nil_append] at hkeeps
      rwa [hnone hnil, ← hkeeps] at h₁

end Rule

/-- **An element of a list is a parameter.** -/
theorem exists_parameter {n : Nat} (hn : n < nestingLimit) {kind : NodeKind} {rest : List Token}
    {cs : List Tree} (htail : Tail all ts)
    (h : Rule.element (Rule.type n) kind ts = .ok ([.node kind cs], rest))
    (hevery : ∀ u ∈ cs, u.Every (Rule.LaidOut all)) :
    ∃ (p : Parameter all) (u : Tree), Carries p.names u p.variadic p.value cs ∧ u.tokens = p.type := by
  have hlex : ∀ t ∈ ts, t.Lexical := fun t ht => htail.mem ht
  obtain ⟨attributes, names, labels, mid, f, rfl, hattributes, hlabels, hlength, hwords, hmid, hf, hnone⟩ :=
    Rule.labels_of_element hlex h
  obtain ⟨f₁, after, f₂, htype, hrest, rfl⟩ := Rule.seq_eq_ok hf
  have hmidTail : Tail all mid := ⟨htail.lexical, hmid.trans htail.suffix⟩
  have hmidLex : ∀ t ∈ mid, t.Lexical := fun t ht => hmidTail.mem ht
  obtain ⟨k, ds, rfl, hisType⟩ := Rule.exists_isType_of_type (Nat.le_of_lt hn) hmidLex htype
  have hkeeps := (Rule.lawful_type n).keeps htype
  rw [forestTokens_singleton] at hkeeps
  have htypeIn : (node k ds).tokens <:+: all :=
    List.IsInfix.trans ⟨[], after, hkeeps⟩ hmidTail.suffix.isInfix
  have hafter : after <:+ mid := ⟨_, hkeeps⟩
  obtain ⟨variadic, dots, value, initializer, separated, separator, rfl, hdots, hinitializer,
      hseparator, hvalue⟩ :=
    Rule.parts_of_elementRest (fun t ht => hmidLex t (hafter.subset ht)) hrest
  -- the type is read again from its own tokens, with the budget of a type that stands in no other
  have hread := Rule.type_alone hmidLex (Nat.le_pred_of_lt hn) htype
  rw [forestTokens_singleton] at hread
  -- where no labels were seen none are seen in the type alone: fewer tokens answer fewer questions with yes
  have hunlabelled (hnil : names = []) :
      Rule.elementLabels (node k ds).tokens = .ok ([], (node k ds).tokens) :=
    Rule.unlabelled_cut hmidLex (hnone hnil) ⟨after, hkeeps⟩
  have hundotted : Undotted (joined (node k ds).tokens).toList := by
    refine undotted_joined (endUndotted_of_isType (hevery (.node k ds) (by simp)) ?_) fun t ht => ?_
    · show (k.isType || _) = true
      rw [hisType, Bool.true_or]
    · exact (hmidLex t (by rw [← hkeeps]; exact mem_append_left _ ht)).text_ne_empty
  refine ⟨{
    names := names
    type := (node k ds).tokens
    variadic := variadic
    value := value
    length_names := hlength
    isWord := fun w hw => ⟨htail.suffix.subset (hwords w hw).1, (hwords w hw).2⟩
    type_isInfix := htypeIn
    type_read := ⟨_, hread⟩
    type_unlabelled := hunlabelled
    type_undotted := hundotted
    value_read := fun v hv => ?_ }, .node k ds, ?_, rfl⟩
  · obtain ⟨hne, stop, hin, hstop⟩ := hvalue v hv
    exact ⟨hne, stop, hin.trans (hafter.trans hmidTail.suffix).isInfix, hstop⟩
  · rw [← append_assoc]
    exact .mk hattributes hlabels hisType hdots hinitializer hseparator

end SwiftOutline
