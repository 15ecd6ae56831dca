import SwiftOutline.Proofs.Grammar.Lawful

/-!
# `LawfulRules` — the grammar is lawful

Every rule of the grammar keeps its tokens and sees them only through its lookaheads
(`Rule.Lawful`). A rule put together from others is lawful because those are; only the runs of tokens
without structure, and the lookaheads that walk over brackets, need an argument of their own.

Main statements: `lawful_type`, `lawful_item`, `lawful_sourceItems`, `lawful_soleType`.
-/

namespace SwiftOutline

open List

/-! ## Runs -/

section

variable {g : Token → Token} (hg : Token.Respaces g)
include hg

/-- A group ends at the same bracket (`depthAfter_respaced`). -/
theorem takeGroup_map (depth : Nat) (ts : List Token) :
    takeGroup depth (ts.map g) = (takeGroup depth ts).map fun p => (p.1.map g, p.2.map g) := by
  induction ts generalizing depth with
  | nil => rfl
  | cons t ts ih =>
    simp only [List.map_cons, takeGroup, isCloser_respaced hg, depthAfter_respaced hg]
    split
    · rfl
    · rw [ih, Option.map_map, Option.map_map]
      rfl

theorem seesObservers_map (ts : List Token) : seesObservers (ts.map g) = seesObservers ts := by
  unfold seesObservers
  rw [sees_map hg, textAt_map hg]

/-- The end of a run is told by classes, texts and line breaks. -/
theorem runEnds_map (comma begun : Bool) (ts : List Token) :
    runEnds comma begun (ts.map g) = runEnds comma begun ts := by
  cases ts with
  | nil => rfl
  | cons t ts =>
    have hend := seesClauseEnd_map hg (t :: ts)
    have hobs := seesObservers_map hg (t :: ts)
    rw [List.map_cons] at hend hobs
    simp only [List.map_cons, runEnds, hg.kind t, hg.text t, hg.newlineBefore t, hend, hobs]

/-- **A run is cut at the same place** (`runEnds_map`). -/
theorem takeRun_map (comma begun : Bool) (depth : Nat) (ts : List Token) :
    takeRun comma begun depth (ts.map g) =
      ((takeRun comma begun depth ts).1.map g, (takeRun comma begun depth ts).2.map g) := by
  induction ts generalizing begun depth with
  | nil => rfl
  | cons t ts ih =>
    have hend := runEnds_map hg comma begun (t :: ts)
    rw [List.map_cons] at hend
    simp only [List.map_cons, takeRun, hend, depthAfter_respaced hg, ih]
    split <;> rfl

theorem requirementsEnd_map (last : String) (begun : Bool) (ts : List Token) :
    requirementsEnd last begun (ts.map g) = requirementsEnd last begun ts := by
  unfold requirementsEnd
  rw [sees_map hg, sees_map hg, sees_map hg, seesClauseEnd_map hg, seesNewline_map hg]

/-- So are requirements (`requirementsEnd_map`). -/
theorem takeRequirements_map (last : String) (begun : Bool) (depth : Nat) (ts : List Token) :
    takeRequirements last begun depth (ts.map g) =
      ((takeRequirements last begun depth ts).1.map g,
        (takeRequirements last begun depth ts).2.map g) := by
  induction ts generalizing last begun depth with
  | nil => rfl
  | cons t ts ih =>
    have hend := requirementsEnd_map hg last begun (t :: ts)
    rw [List.map_cons] at hend
    simp only [List.map_cons, takeRequirements, hend, hg.text t, ih]
    split <;> rfl

end

/-- A run and its rest are the input. -/
theorem takeRun_append (comma begun : Bool) (depth : Nat) (ts : List Token) :
    (takeRun comma begun depth ts).1 ++ (takeRun comma begun depth ts).2 = ts := by
  induction ts generalizing begun depth with
  | nil => rfl
  | cons t ts ih =>
    rw [takeRun]
    split
    · rfl
    · exact congrArg (t :: ·) (ih true (depthAfter depth t))

/-- Requirements and their rest are the input. -/
theorem takeRequirements_append (last : String) (begun : Bool) (depth : Nat) (ts : List Token) :
    (takeRequirements last begun depth ts).1 ++ (takeRequirements last begun depth ts).2 = ts := by
  induction ts generalizing last begun depth with
  | nil => rfl
  | cons t ts ih =>
    rw [takeRequirements]
    split
    · rfl
    · exact congrArg (t :: ·) (ih t.text true _)

namespace Rule

variable {K : ChangeSort} [Changes K]

variable {ts : List Token}

/-- A run of tokens that always ends somewhere. -/
theorem lawfulFor_split {split : List Token → List Token × List Token}
    (happend : ∀ ts, (split ts).1 ++ (split ts).2 = ts)
    (hmap : ∀ {g}, Token.Respaces g → ∀ ts, split (ts.map g) = ((split ts).1.map g, (split ts).2.map g)) :
    LawfulFor K (run fun ts => .ok (split ts)) := by
  refine lawful_run (fun ts front rest h => ?_) fun g ts hg =>
    congrArg Except.ok (hmap (Changes.respaces hg) ts)
  have hsplit := happend ts
  rwa [Except.ok.inj h] at hsplit

theorem split_eq_ok {split : List Token → List Token × List Token} {f : List Tree} {rest : List Token}
    (h : run (fun ts => .ok (split ts)) ts = .ok (f, rest)) :
    f = (split ts).1.map .token ∧ rest = (split ts).2 := by
  obtain ⟨front, hsplit, rfl⟩ := run_eq_ok h
  rw [Except.ok.inj hsplit]
  exact ⟨rfl, rfl⟩

theorem lawful_statementRun : Lawful statementRun :=
  lawfulFor_split (takeRun_append false false 0) fun hg => takeRun_map hg false false 0

theorem lawfulFor_exprRun : LawfulFor K exprRun :=
  lawfulFor_split (takeRun_append true false 0) fun hg => takeRun_map hg true false 0

theorem lawful_exprRun : Lawful exprRun := lawfulFor_exprRun

theorem lawful_requirements : Lawful requirements :=
  lawfulFor_split (takeRequirements_append "where" false 0) fun hg => takeRequirements_map hg "where" false 0

/-- What a group has read (`takeGroup`). -/
theorem group_eq_ok {rest : List Token} {f : List Tree} (h : group ts = .ok (f, rest)) :
    ∃ run, takeGroup 0 ts = some (run, rest) ∧ f = run.map .token := by
  obtain ⟨front, hsplit, rfl⟩ := run_eq_ok h
  split at hsplit
  · next p hp =>
    cases hsplit
    exact ⟨front, hp, rfl⟩
  · cases hsplit

theorem group_ok {run rest : List Token} (h : takeGroup 0 ts = some (run, rest)) :
    group ts = .ok (run.map Tree.token, rest) :=
  run_ok (by rw [h])

/-- A group commutes with every change of gaps (`takeGroup_map`). -/
theorem commutes_group {g : Token → Token} (hg : Token.Respaces g) (ts : List Token) :
    Commutes g group ts := by
  refine commutes_run ?_
  rw [takeGroup_map hg, textAt_map hg]
  cases takeGroup 0 ts <;> rfl

/-- By `commutes_group`. -/
theorem lawful_group : Lawful group where
  keeps ts f rest h := by
    obtain ⟨run, hrun, rfl⟩ := group_eq_ok h
    rw [Tree.forestTokens_map_token]
    exact takeGroup_append hrun
  commutes {_ ts} hg := commutes_group (Changes.respaces hg) ts

theorem lawful_expr : LawfulFor K expr := (lawfulFor_exprRun.nonempty _).node _

end Rule

/-! ## Types -/

variable {ts : List Token}

/-- Looking past effects asks for spacing only directly after `throws` and `rethrows`. -/
theorem afterEffects?_map {g : Token → Token} (hg : Token.Respaces g)
    (htouch : ∀ ⦃t rest⦄, t :: rest <:+ ts → (t.text == "throws" || t.text == "rethrows") = true →
      seesAdjacent "(" (rest.map g) = seesAdjacent "(" rest) :
    afterEffects? (ts.map g) = (afterEffects? ts).map (List.map g) := by
  fun_induction afterEffects? ts with
  | case1 => simp only [map_nil, afterEffects?, Option.map_some]
  | case2 t rest h ih =>
    rw [List.map_cons, afterEffects?, hg.text t, if_pos h]
    exact ih fun _ _ hsuffix => htouch (hsuffix.trans (suffix_cons t rest))
  | case3 t rest h₁ h₂ h₃ p hp ih =>
    have hgroup := takeGroup_map hg 0 rest
    have hrest : p.2 <:+ t :: rest := by
      rw [← takeGroup_append hp]
      exact (suffix_append p.1 p.2).trans (suffix_cons t _)
    rw [hp, Option.map_some] at hgroup
    rw [List.map_cons, afterEffects?, hg.text t, if_neg h₁, if_pos h₂, htouch suffix_rfl h₂, if_pos h₃]
    split
    · next q hq =>
      rw [hgroup] at hq
      cases hq
      exact ih fun _ _ hsuffix => htouch (hsuffix.trans hrest)
    · next hq =>
      rw [hgroup] at hq
      cases hq
  | case4 t rest h₁ h₂ h₃ hp =>
    have hgroup := takeGroup_map hg 0 rest
    rw [hp, Option.map_none] at hgroup
    rw [List.map_cons, afterEffects?, hg.text t, if_neg h₁, if_pos h₂, htouch suffix_rfl h₂, if_pos h₃]
    split
    · next q hq =>
      rw [hgroup] at hq
      cases hq
    · rfl
  | case5 t rest h₁ h₂ h₃ ih =>
    rw [List.map_cons, afterEffects?, hg.text t, if_neg h₁, if_pos h₂, htouch suffix_rfl h₂, if_neg h₃]
    exact ih fun _ _ hsuffix => htouch (hsuffix.trans (suffix_cons t rest))
  | case6 t rest h₁ h₂ =>
    rw [List.map_cons, afterEffects?, hg.text t, if_neg h₁, if_neg h₂, Option.map_some, List.map_cons]

/-- An arrow is found behind the same effects (`afterEffects?_map`). -/
theorem seesFunctionArrow_map {g : Token → Token} (hg : Token.Respaces g)
    (htouch : ∀ ⦃t rest⦄, t :: rest <:+ ts → (t.text == "throws" || t.text == "rethrows") = true →
      seesAdjacent "(" (rest.map g) = seesAdjacent "(" rest) :
    seesFunctionArrow (ts.map g) = seesFunctionArrow ts := by
  unfold seesFunctionArrow
  rw [afterEffects?_map hg htouch]
  cases afterEffects? ts with
  | none => rfl
  | some rest => exact seesKind_map hg .arrow rest

namespace Lookahead

/-- By `seesFunctionArrow_map`. -/
theorem natural_seesFunctionArrow : Natural seesFunctionArrow := by
  intro g ts hg
  apply seesFunctionArrow_map (Changes.respaces hg)
  intro t rest _ _
  exact seesAdjacent_map hg "(" rest

section

variable {K : ChangeSort} [Changes K]

theorem natural_seesTypeSpecifier : NaturalFor K seesTypeSpecifier :=
  ((natural_textAt 0 typeSpecifiers.contains).and natural_seesWord).and
    ((natural_isWordAt 1).or (natural_textAt 1 ["(", "[", "@"].contains))

theorem naturalFor_seesSomeOrAny : NaturalFor K seesSomeOrAny :=
  ((natural_sees "some").or (natural_sees "any")).and
    ((natural_isWordAt 1).or (natural_textAt 1 (· == "(")))

theorem natural_seesEffect : NaturalFor K seesEffect :=
  (natural_textAt 0 ["async", "reasync", "throws", "rethrows"].contains).and natural_seesWord

theorem naturalFor_seesThrows : NaturalFor K seesThrows :=
  (natural_sees "throws").or (natural_sees "rethrows")

end

end Lookahead

namespace Rule

open Lookahead

/-- An attribute asks for gaps in its name and before its arguments. -/
theorem lawful_declAttribute : Lawful declAttribute :=
  (((lawful_bump.seq (lawful_expectWord _)).seq
    ((lawful_bumps 2).many ((natural_seesAdjacent ".").and (natural_isWordAt 1)))).seq
    ((lawful_group.node _).optional (natural_seesAdjacent "("))).node _

theorem lawful_attributeList : Lawful attributeList :=
  (lawful_declAttribute.many (natural_seesKind .atSign)).node _

/-- An effect asks for the gap before a thrown type. -/
theorem lawful_effect : Lawful effect :=
  LawfulFor.either naturalFor_seesThrows
    (lawful_bump.seq (lawful_group.optional (natural_seesAdjacent "("))) lawful_bump

theorem lawful_effectSpecifiers : Lawful effectSpecifiers :=
  (lawful_effect.many natural_seesEffect).node _

/-- A sort of changes that attributes, effects and the search for an arrow do not see. These are all that
    asks for gaps in a type. -/
class TypeChanges (K : ChangeSort) : Prop extends Changes K where
  arrow : seesFunctionArrow.NaturalFor K
  attributes : LawfulFor K attributeList
  effects : LawfulFor K effectSpecifiers

instance typeChanges_unseenIn : TypeChanges Token.UnseenIn where
  arrow := natural_seesFunctionArrow
  attributes := lawful_attributeList
  effects := lawful_effectSpecifiers

section

variable {K : ChangeSort} [Changes K]

theorem lawful_initializerClause : LawfulFor K initializerClause := (lawful_bump.seq lawful_expr).node _

/-- A separator is read, or the list must end here. -/
theorem lawfulFor_separator (closer what : String) :
    LawfulFor K (either (sees ",") bump (require (sees closer) what nothing)) :=
  LawfulFor.either (natural_sees ",") lawful_bump (lawful_nothing.require (natural_sees closer) what)

/-- Entries are read up to a closing token. -/
abbrev entries (closer what : String) (entry : Rule) : Rule :=
  many (fun ts => !sees closer ts) (require (fun ts => !seesEnd ts) what entry)

/-- Entries up to a closing token (`LawfulFor.many`). -/
theorem LawfulFor.entries {entry : Rule} (h : LawfulFor K entry) (closer what : String) :
    LawfulFor K (Rule.entries closer what entry) :=
  (h.require natural_seesEnd.not what).many (natural_sees closer).not

theorem lawful_elementLabels : LawfulFor K elementLabels :=
  LawfulFor.either (natural_seesWord.and (natural_textAt 1 (· == ":"))) (lawful_bumps 2)
    ((lawful_bumps 3).optional
      ((natural_seesWord.and (natural_isWordAt 1)).and (natural_textAt 2 (· == ":"))))

theorem lawful_elementRest : LawfulFor K elementRest :=
  ((lawful_bump.optional (natural_seesKind .ellipsis)).seq
    (lawful_initializerClause.optional (natural_sees "="))).seq (lawfulFor_separator ")" _)

end

theorem lawful_separator (closer what : String) :
    Lawful (either (sees ",") bump (require (sees closer) what nothing)) := lawfulFor_separator closer what

section

variable {K : ChangeSort} [TypeChanges K] {inner : Rule} (hinner : LawfulFor K inner)
include hinner

theorem lawful_genericArgumentClause : LawfulFor K (genericArgumentClause inner) :=
  ((lawful_bump.seq (((hinner.seq (lawfulFor_separator ">" _)).node _).entries ">" _)).seq
    lawful_bump).node _

theorem lawful_tupleElement (kind : NodeKind) : LawfulFor K (tupleElement inner kind) :=
  ((lawful_elementLabels.seq hinner).seq lawful_elementRest).node _

/-- The tokens behind the parentheses decide on a function type (`TypeChanges.arrow`). -/
theorem lawful_parenType : LawfulFor K (parenType inner) := by
  refine LawfulFor.closing ((lawful_bump.seq
    (((lawful_tupleElement hinner _).entries ")" _).node _)).seq lawful_bump) ?_ ?_
  · intro g ts hg
    simp only [TypeChanges.arrow hg]
  · intro ts
    split
    · exact ((TypeChanges.effects.optional natural_seesEffect).seq lawful_bump).seq hinner
    · exact lawful_nothing

/-- A colon decides on a dictionary. -/
theorem lawful_collectionType : LawfulFor K (collectionType inner) := by
  refine LawfulFor.closing (lawful_bump.seq hinner) ?_ ?_
  · intro g ts hg
    simp only [sees_map (Changes.respaces hg)]
  · intro ts
    split
    · exact (lawful_bump.seq hinner).seq (lawful_expect "]")
    · exact lawful_expect "]"

theorem lawful_identifierType : LawfulFor K (identifierType inner) :=
  (lawful_bump.seq ((lawful_genericArgumentClause hinner).optional (natural_sees "<"))).node _

theorem lawful_primaryType : LawfulFor K (primaryType inner) :=
  LawfulFor.either (natural_sees "(") (lawful_parenType hinner)
    (LawfulFor.either (natural_sees "[") (lawful_collectionType hinner)
      ((lawful_identifierType hinner).require natural_seesWord _))

/-- What is put around a type is told by the next two tokens. -/
theorem lawfulForms_postfixForm : LawfulForms K (postfixForm inner) where
  natural hg := by
    have hspaces := Changes.respaces hg
    unfold postfixForm
    simp only [sees_map hspaces, isWordAt_map hspaces, textAt_map hspaces]
  lawful {ts kind p} h := by
    unfold postfixForm at h
    split at h
    · cases h
      exact lawful_bump
    split at h
    · cases h
      exact lawful_bump
    split at h
    · split at h
      · cases h
        exact lawful_bumps 2
      · cases h
        exact (lawful_bumps 2).seq ((lawful_genericArgumentClause hinner).optional (natural_sees "<"))
    · cases h

theorem lawful_postfixType : LawfulFor K (postfixType inner) :=
  (lawful_primaryType hinner).wrapping (lawfulForms_postfixForm hinner)

/-- By cases on what stands in front of the type. -/
theorem lawful_simpleType : LawfulFor K (simpleType inner) :=
  LawfulFor.either ((natural_seesKind .atSign).or natural_seesTypeSpecifier)
    ((((lawful_bump.many natural_seesTypeSpecifier).seq
      (TypeChanges.attributes.optional (natural_seesKind .atSign))).seq
      (lawful_postfixType hinner)).node _)
    (LawfulFor.either naturalFor_seesSomeOrAny ((lawful_bump.seq (lawful_postfixType hinner)).node _)
      (LawfulFor.either (natural_sees "~") ((lawful_bump.seq (lawful_postfixType hinner)).node _)
        (lawful_postfixType hinner)))

/-- Operands behind `&` (`lawful_simpleType`). -/
theorem lawfulForms_compositionForm : LawfulForms K (compositionForm inner) where
  natural hg := by
    unfold compositionForm
    rw [sees_map (Changes.respaces hg)]
  lawful {ts kind p} h := by
    unfold compositionForm at h
    split at h
    · cases h
      exact (lawful_bump.seq (lawful_simpleType hinner)).many (natural_sees "&")
    · cases h

/-- One level of types is lawful if the types inside it are. -/
theorem lawful_typeBody : LawfulFor K (typeBody inner) :=
  (lawful_simpleType hinner).wrapping (lawfulForms_compositionForm hinner)

end

/-- **Types are lawful at every nesting budget**, for changes that no part of them sees. -/
theorem lawfulFor_type {K : ChangeSort} [TypeChanges K] (n : Nat) : LawfulFor K (type n) := by
  induction n with
  | zero => exact lawfulFor_tooDeep
  | succ n ih => exact lawful_typeBody ih

theorem lawful_type (n : Nat) : Lawful (type n) := lawfulFor_type n

theorem lawfulFor_soleType {K : ChangeSort} [TypeChanges K] : LawfulFor K soleType :=
  ((lawfulFor_type _).seq (lawful_bump.optional (natural_seesKind .ellipsis))).seq
    (lawful_nothing.require natural_seesEnd _)

theorem lawful_soleType : Lawful soleType := lawfulFor_soleType

end Rule

/-! ## What introduces a declaration -/

/-- Where there is no `@`, no attribute is skipped. -/
theorem afterAttributes?_of_not (h : seesKind .atSign ts = false) : afterAttributes? ts = some ts := by
  rw [afterAttributes?, if_neg (by rw [h]; exact Bool.false_ne_true)]

theorem afterAttributes?_of_some {rest : List Token} (hs : seesKind .atSign ts = true)
    (h : afterAttribute? ts = some rest) : afterAttributes? ts = afterAttributes? rest := by
  rw [afterAttributes?, if_pos hs]
  split
  · next rest' h' =>
    rw [h] at h'
    cases h'
    rfl
  · next h' =>
    rw [h] at h'
    cases h'

theorem afterAttributes?_of_none (hs : seesKind .atSign ts = true)
    (h : afterAttribute? ts = none) : afterAttributes? ts = none := by
  rw [afterAttributes?, if_pos hs]
  split
  · next rest' h' =>
    rw [h] at h'
    cases h'
  · rfl

theorem afterModifiers_of_none (h : modifierLength? ts = none) : afterModifiers ts = ts := by
  rw [afterModifiers]
  split
  · next n h' =>
    rw [h] at h'
    cases h'
  · rfl

theorem afterModifiers_of_some {n : Nat} (h : modifierLength? ts = some n) :
    afterModifiers ts = afterModifiers (ts.drop n) := by
  rw [afterModifiers]
  split
  · next n' h' =>
    rw [h] at h'
    cases h'
    rfl
  · next h' =>
    rw [h] at h'
    cases h'

section

variable {g : Token → Token} (hg : Token.Unseen g)
include hg

theorem modifierLength?_map (ts : List Token) : modifierLength? (ts.map g) = modifierLength? ts := by
  unfold modifierLength?
  simp only [textAt_map hg.respaces, seesWord_map hg.respaces]

/-- A name with dots ends at the same token; a dot goes on with it only where it touches. -/
theorem afterDottedName_map (ts : List Token) :
    afterDottedName (ts.map g) = (afterDottedName ts).map g := by
  fun_induction afterDottedName ts with
  | case1 dot word rest h ih =>
    rw [List.map_cons, List.map_cons, afterDottedName, hg.text, hg.respaces.isWord,
      hg.isAdjacent, if_pos h, ih]
  | case2 dot word rest h =>
    rw [List.map_cons, List.map_cons, afterDottedName, hg.text, hg.respaces.isWord, hg.isAdjacent, if_neg h]
  | case3 ts h =>
    match ts, h with
    | [], _ => rfl
    | [t], _ => rfl
    | dot :: word :: rest, h => exact absurd rfl (h dot word rest)

/-- By `afterDottedName_map` and `takeGroup_map`. -/
theorem afterAttribute?_map (ts : List Token) :
    afterAttribute? (ts.map g) = (afterAttribute? ts).map (List.map g) := by
  match ts with
  | [] => rfl
  | [t] => rfl
  | t :: word :: rest =>
    simp only [List.map_cons, afterAttribute?, hg.respaces.isWord, afterDottedName_map hg,
      seesAdjacent_map hg, takeGroup_map hg.respaces]
    split
    · split
      · rw [Option.map_map, Option.map_map]
        rfl
      · rfl
    · rfl

/-- Attributes are skipped up to the same token (`afterAttribute?_map`). -/
theorem afterAttributes?_map (ts : List Token) :
    afterAttributes? (ts.map g) = (afterAttributes? ts).map (List.map g) := by
  induction hn : ts.length using Nat.strongRecOn generalizing ts with
  | ind n ih =>
    have hsees := seesKind_map hg.respaces .atSign ts
    have hmap := afterAttribute?_map hg ts
    cases hs : seesKind .atSign ts with
    | false =>
      rw [hs] at hsees
      rw [afterAttributes?_of_not hs, afterAttributes?_of_not hsees, Option.map_some]
    | true =>
      rw [hs] at hsees
      cases h : afterAttribute? ts with
      | none =>
        rw [h] at hmap
        rw [afterAttributes?_of_none hs h, afterAttributes?_of_none hsees hmap, Option.map_none]
      | some rest =>
        rw [h] at hmap
        rw [afterAttributes?_of_some hs h, afterAttributes?_of_some hsees hmap]
        exact ih rest.length (hn ▸ length_lt_of_afterAttribute? h) rest rfl

/-- So are modifiers (`modifierLength?_map`). -/
theorem afterModifiers_map (ts : List Token) :
    afterModifiers (ts.map g) = (afterModifiers ts).map g := by
  induction hn : ts.length using Nat.strongRecOn generalizing ts with
  | ind n ih =>
    have hmap := modifierLength?_map hg ts
    cases h : modifierLength? ts with
    | none =>
      rw [h] at hmap
      rw [afterModifiers_of_none h, afterModifiers_of_none hmap]
    | some k =>
      rw [h] at hmap
      rw [afterModifiers_of_some h, afterModifiers_of_some hmap, ← map_drop]
      have hpos := pos_of_modifierLength? h
      exact ih (ts.drop k).length (by rw [length_drop]; omega) (ts.drop k) rfl

theorem seesDeclarationKeyword_map (ts : List Token) :
    seesDeclarationKeyword (ts.map g) = seesDeclarationKeyword ts := by
  unfold seesDeclarationKeyword
  simp only [seesWord_map hg.respaces, textAt_map hg.respaces, sees_map hg.respaces, isWordAt_map hg.respaces]

/-- **A declaration is found at the same token** (`afterAttributes?_map`, `afterModifiers_map`). -/
theorem declarationStart?_map (ts : List Token) :
    declarationStart? (ts.map g) = (declarationStart? ts).map (List.map g) := by
  unfold declarationStart?
  rw [afterAttributes?_map hg]
  cases afterAttributes? ts with
  | none => rfl
  | some rest =>
    simp only [Option.map_some, Option.bind_eq_bind, Option.bind_some, afterModifiers_map hg,
      seesDeclarationKeyword_map hg]
    split <;> rfl

end

namespace Lookahead

theorem natural_isModifier : Natural fun ts => (modifierLength? ts).isSome := by
  intro g ts hg
  simp only [modifierLength?_map hg]

theorem natural_seesOperator : Natural seesOperator := by
  intro g ts hg
  refine any_head?_map (fun t => ?_) ts
  unfold isOperatorToken
  rw [Token.Unseen.kind hg t, Token.Unseen.text hg t]

/-- A question about the lexical class of the `n`th token ahead. -/
theorem natural_kindAt (n : Nat) (kind : TokenKind) :
    Natural fun ts => ts[n]?.any (·.kind == kind) := by
  intro g ts hg
  simp only [List.getElem?_map]
  cases ts[n]? with
  | none => rfl
  | some t => simp only [Option.map_some, Option.any_some, Token.Unseen.kind hg t]

theorem natural_headAdjacent : Natural fun ts => ts.head?.any Token.isAdjacent :=
  fun _ ts hg => any_head?_map (fun t => Token.Unseen.isAdjacent hg t) ts

end Lookahead

namespace Rule

open Lookahead

/-- The length of a modifier stays (`modifierLength?_map`). -/
theorem lawful_declModifier : Lawful declModifier := by
  refine LawfulFor.node _ ⟨?_, ?_⟩
  · intro ts f rest h
    exact keeps_bumps _ h
  · intro g ts hg
    simp only [Commutes, modifierLength?_map hg]
    exact bumps_map g _ ts

theorem lawful_modifierList : Lawful modifierList :=
  (lawful_declModifier.many natural_isModifier).node _

theorem lawful_introducer : Lawful introducer :=
  ((lawful_attributeList.optional (natural_seesKind .atSign)).seq
    (lawful_modifierList.optional natural_isModifier)).seq lawful_bump

/-! ## Clauses -/

theorem lawful_name : Lawful name := (lawful_expectWord _).node _

theorem lawful_whereClause : Lawful whereClause :=
  (lawful_bump.seq (lawful_requirements.nonempty _)).node _

theorem lawful_accessorBlock : Lawful accessorBlock := lawful_group.node _

theorem lawful_functionName : Lawful functionName :=
  (LawfulFor.either natural_seesWord lawful_bump
    ((lawful_bump.require natural_seesOperator _).seq
      (lawful_bump.many (natural_seesOperator.and natural_headAdjacent)))).node _

theorem lawful_importRest : Lawful importRest :=
  (lawful_bump.optional
    ((natural_textAt 0 importKinds.contains).and (natural_isWordAt 1))).seq
    (((lawful_expectWord _).seq
      ((lawful_bumps 2).many
        ((natural_sees ".").and ((natural_isWordAt 1).or (natural_kindAt 1 .punct))))).node _)

theorem lawful_operatorRest : Lawful operatorRest :=
  (lawful_functionName.seq
    ((((lawful_bump.seq (lawful_expectWord _)).seq
      ((lawful_bump.seq (lawful_expectWord _)).many (natural_sees ","))).node _).optional
      (natural_sees ":"))).seq
    ((lawful_group.node _).optional (natural_sees "\x7b"))

theorem lawful_precedenceGroupRest : Lawful precedenceGroupRest :=
  lawful_name.seq ((lawful_group.require (natural_sees "\x7b") _).node _)

/-- A generic parameter with the separator behind it. -/
abbrev genericParameter {F : Type} [Append F] [Yield F] (type : Rule F) : Rule F :=
  node .genericParameter
    (optional (fun ts => sees "each" ts && isWordAt 1 ts) bump ++ expectWord "generic parameter name" ++
      optional (sees ":") (bump ++ type) ++
      either (sees ",") bump (require (sees ">") "',' or '>'" nothing))

section

variable {type : Rule} (htype : Lawful type)
include htype

theorem lawful_genericParameter : Lawful (genericParameter type) :=
  ((((lawful_bump.optional ((natural_sees "each").and (natural_isWordAt 1))).seq (lawful_expectWord _)).seq
    ((lawful_bump.seq htype).optional (natural_sees ":"))).seq (lawful_separator ">" _)).node _

theorem lawful_genericParameterClause : Lawful (genericParameterClause type) :=
  ((lawful_bump.seq ((lawful_genericParameter htype).entries ">" _)).seq lawful_bump).node _

theorem lawful_inheritanceClause : Lawful (inheritanceClause type) :=
  (lawful_bump.seq (htype.chain _ ",")).node _

theorem lawful_functionParameter : Lawful (functionParameter type) :=
  ((((((lawful_attributeList.optional (natural_seesKind .atSign)).seq (lawful_expectWord _)).seq
    (lawful_bump.optional natural_seesWord)).seq (lawful_expect ":")).seq htype).seq
    lawful_elementRest).node _

theorem lawful_parameterClause : Lawful (parameterClause type) :=
  (((lawful_expect "(").seq ((lawful_functionParameter htype).entries ")" _)).seq lawful_bump).node _

theorem lawful_functionSignature : Lawful (functionSignature type) :=
  (((lawful_parameterClause htype).seq (lawful_effectSpecifiers.optional natural_seesEffect)).seq
    (((lawful_bump.seq htype).node _).optional (natural_seesKind .arrow))).node _

theorem lawful_typeInitializer : Lawful (typeInitializer type) :=
  ((lawful_expect "=").seq htype).node _

theorem lawful_signatureRest : Lawful (signatureRest type) :=
  (((lawful_genericParameterClause htype).optional (natural_sees "<")).seq
    (lawful_functionSignature htype)).seq (lawful_whereClause.optional (natural_sees "where"))

theorem lawful_subscriptRest : Lawful (subscriptRest type) :=
  (lawful_signatureRest htype).seq (lawful_accessorBlock.optional (natural_sees "\x7b"))

theorem lawful_patternBinding : Lawful (patternBinding type) :=
  (((((LawfulFor.either (natural_sees "(") lawful_group (lawful_expectWord _)).node _).seq
    (((lawful_bump.seq htype).node _).optional (natural_sees ":"))).seq
    (lawful_initializerClause.optional (natural_sees "="))).seq
    (lawful_accessorBlock.optional (natural_sees "\x7b"))).node _

theorem lawful_variableRest : Lawful (variableRest type) :=
  (lawful_patternBinding htype).seq
    ((lawful_bump.seq (lawful_patternBinding htype)).many (natural_sees ","))

theorem lawful_typealiasRest : Lawful (typealiasRest type) :=
  ((lawful_name.seq ((lawful_genericParameterClause htype).optional (natural_sees "<"))).seq
    (lawful_typeInitializer htype)).seq (lawful_whereClause.optional (natural_sees "where"))

theorem lawful_associatedTypeRest : Lawful (associatedTypeRest type) :=
  ((lawful_name.seq ((lawful_inheritanceClause htype).optional (natural_sees ":"))).seq
    ((lawful_typeInitializer htype).optional (natural_sees "="))).seq
    (lawful_whereClause.optional (natural_sees "where"))

theorem lawful_enumCaseElement : Lawful (enumCaseElement type) :=
  ((lawful_name.seq
    ((((lawful_bump.seq ((lawful_tupleElement htype _).entries ")" _)).seq lawful_bump).node _).optional
      (natural_sees "("))).seq (lawful_initializerClause.optional (natural_sees "="))).node _

theorem lawful_enumCaseRest : Lawful (enumCaseRest type) :=
  (lawful_enumCaseElement htype).seq
    ((lawful_bump.seq (lawful_enumCaseElement htype)).many (natural_sees ","))

/-! ## Items -/

variable {item : Rule} (hitem : Lawful item)
include hitem

omit htype in
theorem lawful_itemBlock (kind : NodeKind) : Lawful (itemBlock item kind) :=
  (((lawful_expect _).seq (hitem.entries "\x7d" _)).seq lawful_bump).node _

omit htype in
theorem lawful_body : Lawful (body item) :=
  (lawful_itemBlock hitem _).optional (natural_sees "\x7b")

theorem lawful_containerRest : Lawful (containerRest type item) :=
  ((((lawful_genericParameterClause htype).optional (natural_sees "<")).seq
    ((lawful_inheritanceClause htype).optional (natural_sees ":"))).seq
    (lawful_whereClause.optional (natural_sees "where"))).seq (lawful_itemBlock hitem _)

theorem lawful_functionRest : Lawful (functionRest type item) :=
  (lawful_functionName.seq (lawful_signatureRest htype)).seq (lawful_body hitem)

theorem lawful_initializerRest : Lawful (initializerRest type item) :=
  ((lawful_bump.optional ((natural_seesAdjacent "?").or (natural_seesAdjacent "!"))).seq
    (lawful_signatureRest htype)).seq (lawful_body hitem)

/-- Each kind of declaration has a lawful rule of its own. -/
theorem lawful_declarationRest (kind : NodeKind) : Lawful (declarationRest type item kind) := by
  unfold declarationRest
  split
  · exact lawful_importRest
  · exact lawful_name.seq (lawful_containerRest htype hitem)
  · exact lawful_name.seq (lawful_containerRest htype hitem)
  · exact lawful_name.seq (lawful_containerRest htype hitem)
  · exact lawful_name.seq (lawful_containerRest htype hitem)
  · exact lawful_name.seq (lawful_containerRest htype hitem)
  · exact htype.seq (lawful_containerRest htype hitem)
  · exact lawful_functionRest htype hitem
  · exact lawful_initializerRest htype hitem
  · exact lawful_body hitem
  · exact lawful_subscriptRest htype
  · exact lawful_variableRest htype
  · exact lawful_typealiasRest htype
  · exact lawful_associatedTypeRest htype
  · exact lawful_enumCaseRest htype
  · exact lawful_operatorRest
  · exact lawful_precedenceGroupRest

theorem lawful_declaration (kind : NodeKind) : Lawful (declaration type item kind) :=
  (lawful_introducer.seq (lawful_declarationRest htype hitem kind)).node _

omit htype hitem in
theorem lawful_ifConfigCondition : Lawful ifConfigCondition :=
  ((lawful_bump.seq (lawful_bump.many (natural_seesEnd.or natural_seesNewline).not)).node _).require
    (natural_seesEnd.or natural_seesNewline).not _

omit htype in
theorem lawful_ifConfigClause : Lawful (ifConfigClause item) :=
  ((LawfulFor.either (natural_sees "#else") lawful_bump (lawful_bump.seq lawful_ifConfigCondition)).seq
    ((hitem.require (natural_seesEnd.or (natural_sees "\x7d")).not _).many
      natural_seesClauseEnd.not)).node _

omit htype in
theorem lawful_ifConfig : Lawful (ifConfig item) :=
  (((lawful_ifConfigClause hitem).seq
    ((lawful_ifConfigClause hitem).many
      (natural_seesClauseEnd.and (natural_sees "#endif").not))).seq lawful_bump).node _

omit htype hitem in
theorem lawful_statement : Lawful statement :=
  (lawful_statementRun.node _).require ((natural_sees "\x7d").or natural_seesClauseEnd).not _

/-- One level of items is lawful if what is inside it is (`declarationStart?_map`). -/
theorem lawful_itemBody : Lawful (itemBody type item) := by
  refine LawfulFor.either (natural_sees ";") lawful_bump
    (LawfulFor.either (natural_sees "#if") (lawful_ifConfig hitem) ⟨?_, ?_⟩)
  · intro ts f rest h
    simp only at h
    split at h
    · exact (lawful_declaration htype hitem _).keeps h
    · exact lawful_statement.keeps h
  · intro g ts hg
    simp only [Commutes, declarationStart?_map hg]
    cases declarationStart? ts with
    | none => exact lawful_statement.commutes hg
    | some rest =>
      simp only [Option.map_some, textAt_map (Changes.respaces hg)]
      exact (lawful_declaration htype hitem _).commutes hg

end

/-- **Items are lawful at every nesting budget.** -/
theorem lawful_item (n : Nat) : Lawful (item n) := by
  induction n with
  | zero => exact lawfulFor_tooDeep
  | succ n ih => exact lawful_itemBody (lawful_type n) ih

/-- **A file is lawful** (`lawful_item`). -/
theorem lawful_sourceItems : Lawful sourceItems := (lawful_item _).many natural_seesEnd.not

end Rule
end SwiftOutline
