import SwiftOutline.Proofs.Grammar.Agreement
import SwiftOutline.Proofs.Token.Spans

/-!
# `Termination` — parsing ends because every step reads something

Two kinds of recursion drive the grammar. A repetition goes round as long as its question says so, and
types and items stand inside types and items. Both end for the same reason, that the tokens left over get
fewer:

* **a round of a repetition reads a token** — so no repetition needs the guard that ends it after an idle
  round;
* **a type or an item inside another is read from fewer tokens** — so one level of the grammar is the
  same over any two rules that agree on fewer tokens. The nesting budget is therefore no fuel: an input
  of fewer tokens does not see it, and elsewhere it shows only as the fault of going too deep.
-/

namespace SwiftOutline

namespace Rule

open Lookahead

/-! ## Rounds -/

/-- A successful rule leaves fewer tokens than its input has, and they are the last ones of it. -/
def Advances (p : Rule) (ts : List Token) : Prop :=
  ∀ ⦃f : List Tree⦄ ⦃rest : List Token⦄, p ts = .ok (f, rest) → rest <:+ ts ∧ rest.length < ts.length

variable {p : Rule} {ts : List Token} {n m : Nat}

theorem Consumes.advances (hp : Consumes p) (hlaw : Lawful p) (hne : ts ≠ []) : Advances p ts :=
  fun f _ h => ⟨⟨Tree.forestTokens f, hlaw.keeps h⟩, hp hne h⟩

/-- An entry is read only where there is a token. -/
theorem Consumes.advances_entry (hp : Consumes p) (hlaw : Lawful p) (what : String) (ts : List Token) :
    Advances (Rule.require (fun ts => !seesEnd ts) what p) ts := by
  intro f rest h
  unfold Rule.require Rule.either at h
  split at h
  · next hask =>
    refine hp.advances hlaw ?_ h
    rintro rfl
    cases hask
  · cases h

/-- A generic argument with the separator behind it. -/
abbrev genericArgument (type : Rule) : Rule :=
  node .genericArgument (type ++ either (sees ",") bump (require (sees ">") "',' or '>'" nothing))

/-- The parts that the grammar repeats, each with the question before a round. Types are read by `type`
and items by `item`. -/
inductive Repeats (type item : Rule) : Lookahead → Rule → Prop
  | attributes : Repeats type item (seesKind .atSign) declAttribute
  | attributeNames : Repeats type item (fun ts => seesAdjacent "." ts && isWordAt 1 ts) (bumps 2)
  | effects : Repeats type item seesEffect effect
  | specifiers : Repeats type item seesTypeSpecifier bump
  | operands : Repeats type item (sees "&") (bump ++ simpleType type)
  | genericArguments :
      Repeats type item (fun ts => !sees ">" ts)
        (require (fun ts => !seesEnd ts) "'>'" (genericArgument type))
  | genericParameters :
      Repeats type item (fun ts => !sees ">" ts)
        (require (fun ts => !seesEnd ts) "'>'" (genericParameter type))
  | tupleElements (kind : NodeKind) :
      Repeats type item (fun ts => !sees ")" ts)
        (require (fun ts => !seesEnd ts) "')'" (tupleElement type kind))
  | parameters :
      Repeats type item (fun ts => !sees ")" ts)
        (require (fun ts => !seesEnd ts) "')'" (functionParameter type))
  | modifiers : Repeats type item (fun ts => (modifierLength? ts).isSome) declModifier
  | operatorTokens : Repeats type item (fun ts => seesOperator ts && ts.head?.any Token.isAdjacent) bump
  | importNames :
      Repeats type item (fun ts => sees "." ts && (isWordAt 1 ts || ts[1]?.any (·.kind == .punct))) (bumps 2)
  | bindings : Repeats type item (sees ",") (bump ++ patternBinding type)
  | enumCases : Repeats type item (sees ",") (bump ++ enumCaseElement type)
  | precedenceGroups : Repeats type item (sees ",") (bump ++ expectWord "precedence group")
  | conditionTokens : Repeats type item (fun ts => !(seesEnd ts || seesNewline ts)) bump
  | clauses : Repeats type item (fun ts => seesClauseEnd ts && !sees "#endif" ts) (ifConfigClause item)
  | clauseItems :
      Repeats type item (fun ts => !seesClauseEnd ts)
        (require (fun ts => !(seesEnd ts || sees "\x7d" ts)) "'#endif'" item)
  | blockItems :
      Repeats type item (fun ts => !sees "\x7d" ts) (require (fun ts => !seesEnd ts) "'\x7d'" item)
  | fileItems : Repeats type item (fun ts => !seesEnd ts) item

section

variable {type item : Rule} (htype : Lawful type) (hitem : Lawful item) (hreads : Consumes type)
  (hreads' : Consumes item)
include htype hitem hreads hreads'

/-- **A round that is asked for reads a token.** -/
theorem Repeats.advances {ask : Lookahead} {p : Rule} (h : Repeats type item ask p) {ts : List Token}
    (hask : ask ts = true) : Advances p ts := by
  cases h with
  | attributes =>
    exact consumes_declAttribute.advances lawful_declAttribute ((ofHead_seesKind .atSign).ne_nil hask)
  | attributeNames =>
    rw [Bool.and_eq_true] at hask
    exact (consumes_bumps 1).advances (lawful_bumps 2) ((ofHead_seesAdjacent ".").ne_nil hask.1)
  | effects => exact consumes_effect.advances lawful_effect (ofHead_seesEffect.ne_nil hask)
  | specifiers => exact consumes_bump.advances lawful_bump (ne_nil_of_seesTypeSpecifier hask)
  | operands =>
    have hoperand := lawful_simpleType htype
    exact (consumes_bump.seq_left hoperand).advances (lawful_bump.seq hoperand)
      ((ofHead_sees "&").ne_nil hask)
  | genericArguments =>
    have hseparator := lawful_separator ">" "',' or '>'"
    exact ((hreads.seq_left hseparator).node _).advances_entry ((htype.seq hseparator).node _) _ ts
  | genericParameters =>
    exact (consumes_genericParameter htype).advances_entry (lawful_genericParameter htype) _ ts
  | tupleElements kind =>
    exact (consumes_tupleElement htype hreads kind).advances_entry (lawful_tupleElement htype kind) _ ts
  | parameters =>
    exact (consumes_functionParameter htype).advances_entry (lawful_functionParameter htype) _ ts
  | modifiers =>
    intro f rest hok
    exact ⟨⟨Tree.forestTokens f, lawful_declModifier.keeps hok⟩, length_lt_of_declModifier hask hok⟩
  | operatorTokens =>
    rw [Bool.and_eq_true] at hask
    exact consumes_bump.advances lawful_bump (ofHead_seesOperator.ne_nil hask.1)
  | importNames =>
    rw [Bool.and_eq_true] at hask
    exact (consumes_bumps 1).advances (lawful_bumps 2) ((ofHead_sees ".").ne_nil hask.1)
  | bindings =>
    have hbinding := lawful_patternBinding htype
    exact (consumes_bump.seq_left hbinding).advances (lawful_bump.seq hbinding)
      ((ofHead_sees ",").ne_nil hask)
  | enumCases =>
    have helement := lawful_enumCaseElement htype
    exact (consumes_bump.seq_left helement).advances (lawful_bump.seq helement)
      ((ofHead_sees ",").ne_nil hask)
  | precedenceGroups =>
    exact (consumes_bump.seq_left (lawful_expectWord _)).advances (lawful_bump.seq (lawful_expectWord _))
      ((ofHead_sees ",").ne_nil hask)
  | conditionTokens =>
    refine consumes_bump.advances lawful_bump ?_
    rintro rfl
    cases hask
  | clauses =>
    rw [Bool.and_eq_true] at hask
    exact (consumes_ifConfigClause hitem).advances (lawful_ifConfigClause hitem)
      (ofHead_seesClauseEnd.ne_nil hask.1)
  | clauseItems =>
    intro f rest hok
    have hentry := hitem.require (natural_seesEnd.or (natural_sees "\x7d")).not "'#endif'"
    exact ⟨⟨Tree.forestTokens f, hentry.keeps hok⟩, length_lt_of_clauseItem hreads' hok⟩
  | blockItems => exact hreads'.advances_entry hitem _ ts
  | fileItems =>
    refine hreads'.advances hitem ?_
    rintro rfl
    cases hask

end

/-! ## Repetitions without their guards -/

/-- A repetition whose rounds read tokens is the repetition without a guard. -/
theorem many_unguarded {ask : Lookahead} (hp : ∀ ⦃ts⦄, ask ts = true → Advances p ts) :
    many ask p = either ask (p ++ many ask p) nothing := by
  funext ts
  unfold either
  cases hask : ask ts with
  | false => exact many_of_not hask
  | true =>
    rw [if_pos rfl]
    cases hok : p ts with
    | error e => rw [many_error hask hok, seq_error hok]
    | ok out =>
      obtain ⟨f, mid⟩ := out
      rw [many_round hask hok (hp hask hok).2]
      cases hmany : many ask p mid with
      | error e => rw [seq_error_right hok hmany, andThen_error]
      | ok out => rw [seq_ok hok hmany, andThen_ok]

/-- A round of a wrapping without a guard, which goes on with `again`. -/
def wrapRound (again : List Tree → Rule) (ask : Form) (f : List Tree) : Rule :=
  fun ts =>
    match ask ts with
    | none => .ok (f, ts)
    | some (kind, p) =>
      match p ts with
      | .error e => .error e
      | .ok (g, rest) => again [.node kind (f ++ g)] rest

/-- So are the nodes put around what was read. -/
theorem wrappings_unguarded {ask : Form}
    (hask : ∀ ⦃ts kind p⦄, ask ts = some (kind, p) → Advances p ts) (f : List Tree) :
    wrappings ask f = wrapRound (wrappings ask) ask f := by
  funext ts
  rw [wrappings, wrapRound]
  cases ha : ask ts with
  | none => rfl
  | some form =>
    obtain ⟨kind, p⟩ := form
    simp only
    cases hok : p ts with
    | error e => rfl
    | ok out => exact if_pos (hask ha hok).2

/-- A round of a chain without a guard, which goes on behind the link with `again`. -/
def linkRound (again : Rule) (kind : NodeKind) (p : Rule) (link : String) : Rule := fun ts =>
  match p ts with
  | .error e => .error e
  | .ok (f, rest) =>
    if sees link rest then
      match again (rest.drop 1) with
      | .error e => .error e
      | .ok (g, rest') => .ok (.node kind (f ++ (rest.take 1).map .token) :: g, rest')
    else .ok ([.node kind f], rest)

/-- A link is a token, so a chain that goes on behind one has fewer tokens left. -/
theorem chain_unguarded (hp : Keeps p) (kind : NodeKind) (link : String) :
    chain kind p link = linkRound (chain kind p link) kind p link := by
  funext ts
  rw [chain, linkRound]
  cases hok : p ts with
  | error e => rfl
  | ok out =>
    obtain ⟨f, rest⟩ := out
    simp only [andThen_ok]
    cases hsees : sees link rest with
    | false =>
      rw [if_neg fun h => Bool.false_ne_true h.1, if_neg Bool.false_ne_true]
      rfl
    | true =>
      obtain ⟨t, rest, rfl⟩ := (ofHead_sees link).exists_cons hsees
      have hlen := congrArg List.length (hp hok)
      rw [List.length_append, List.length_cons] at hlen
      have hlt : ((t :: rest).drop 1).length < ts.length := by
        rw [List.drop_one, List.tail_cons]
        omega
      rw [if_pos ⟨rfl, hlt⟩, if_pos rfl]
      cases chain kind p link ((t :: rest).drop 1) <;> rfl

/-! ## The recursion of types and items -/

/-- The fault of a budget that is used up. -/
def IsTooDeep (e : Fault) : Prop := ∃ found, e = .tooDeep found

/-- The trees are the same on inputs of fewer than `bound` tokens, and the faults are unless they are
allowed. -/
abbrev Alike (allowed : Fault → Prop) (bound : Nat) (p q : Rule) : Prop := Agree Eq allowed bound p q

variable {allowed : Fault → Prop} {bound : Nat}

/-- With the same input the second rule reads what the first has read. -/
theorem Agree.ok {p p' : Rule} (h : Alike allowed bound p p') {ts rest : List Token}
    {f : List Tree} (hts : ts.length < bound) (hok : p ts = .ok (f, rest)) : p' ts = .ok (f, rest) := by
  obtain ⟨f', hok', rfl⟩ := SameBut.exists_ok (hok ▸ h.outcome hts)
  exact hok'

theorem alike_typeBody {inner inner' : Rule} (h : Alike allowed bound inner inner')
    (hbound : 0 < bound) : Alike allowed (bound + 1) (typeBody inner) (typeBody inner') :=
  Agree.schematic_late Yield.respects_eq h h (s := fun type _ => typeBody type)
    (Schematic.typeBody (n := 0)) hbound

theorem alike_itemBody {type type' item item' : Rule}
    (h : Alike allowed bound type type') (h' : Alike allowed bound item item') (hbound : 0 < bound) :
    Alike allowed (bound + 1) (itemBody type item) (itemBody type' item') :=
  Agree.schematic_late Yield.respects_eq h h' (Schematic.itemBody (n := 0)) hbound

/-- Where no fault is allowed, the outcomes are the same. -/
theorem Agree.eq {p p' : Rule} (h : Alike (fun _ => False) bound p p') {ts : List Token}
    (hts : ts.length < bound) : p ts = p' ts :=
  (h.outcome hts).eq_or.resolve_right fun ⟨_, hfalse, _⟩ => hfalse

theorem typeBody_nil (inner : Rule) : typeBody inner [] = .error (.expected "type" none) := by
  have hsimple : simpleType inner [] = .error (.expected "type" none) := by
    simp [simpleType, postfixType, wrapping, primaryType, require, either, fail,
      run, sees, seesKind, seesTypeSpecifier, seesSomeOrAny, seesWord, isWordAt]
  rw [typeBody, wrapping, hsimple, andThen_error]

/-- **One level of types looks at the types inside only on fewer tokens.** -/
theorem typeBody_local {inner inner' : Rule} (hinner : Keeps inner)
    (h : ∀ us : List Token, us.length < ts.length → inner us = inner' us) :
    typeBody inner ts = typeBody inner' ts := by
  by_cases hne : ts = []
  · rw [hne, typeBody_nil, typeBody_nil]
  · have hagree : Alike (fun _ => False) ts.length inner inner' := ⟨hinner, fun us hus => h us hus ▸ .refl _⟩
    exact (alike_typeBody hagree (List.length_pos_iff.mpr hne)).eq (Nat.lt_succ_self _)

/-- **One level of items looks at the types and items inside only on fewer tokens.** -/
theorem itemBody_local {type type' item item' : Rule} (htype : Keeps type) (hitem : Keeps item)
    (h : ∀ us : List Token, us.length < ts.length → type us = type' us ∧ item us = item' us) :
    itemBody type item ts = itemBody type' item' ts := by
  by_cases hne : ts = []
  · -- at the end of the input there is no type or item to read
    subst hne
    rw [itemBody_statement rfl rfl declarationStart?_nil, itemBody_statement rfl rfl declarationStart?_nil]
  · have htypes : Alike (fun _ => False) ts.length type type' := ⟨htype, fun us hus => (h us hus).1 ▸ .refl _⟩
    have hitems : Alike (fun _ => False) ts.length item item' := ⟨hitem, fun us hus => (h us hus).2 ▸ .refl _⟩
    exact (alike_itemBody htypes hitems (List.length_pos_iff.mpr hne)).eq (Nat.lt_succ_self _)

/-- A budget of more levels than there are tokens is not seen. -/
theorem type_eq_of_length_lt (hn : ts.length < n) (hm : ts.length < m) : type n ts = type m ts := by
  induction n generalizing m ts with
  | zero => cases hn
  | succ n ih =>
    cases m with
    | zero => cases hm
    | succ m => exact typeBody_local (lawful_type n).keeps fun us hus => ih (by omega) (by omega)

theorem item_eq_of_length_lt (hn : ts.length < n) (hm : ts.length < m) : item n ts = item m ts := by
  induction n generalizing m ts with
  | zero => cases hn
  | succ n ih =>
    cases m with
    | zero => cases hm
    | succ m =>
      refine itemBody_local (lawful_type n).keeps (lawful_item n).keeps fun us hus => ?_
      exact ⟨type_eq_of_length_lt (by omega) (by omega), ih (by omega) (by omega)⟩

theorem alike_tooDeep (bound : Nat) (p : Rule) : Alike IsTooDeep bound tooDeep p :=
  ⟨keeps_tooDeep, fun ts _ => .allowed ⟨ts.head?, rfl⟩ _⟩

/-- **A larger budget changes nothing but the fault of going too deep.** -/
theorem alike_type (h : n ≤ m) (bound : Nat) : Alike IsTooDeep bound (type n) (type m) := by
  induction n generalizing m bound with
  | zero => exact alike_tooDeep bound (type m)
  | succ n ih =>
    obtain ⟨m, rfl⟩ := Nat.exists_eq_succ_of_ne_zero (Nat.ne_zero_of_lt h)
    exact (alike_typeBody (ih (Nat.le_of_succ_le_succ h) (bound + 1)) (Nat.succ_pos bound)).mono (by omega)

theorem alike_item (h : n ≤ m) (bound : Nat) : Alike IsTooDeep bound (item n) (item m) := by
  induction n generalizing m bound with
  | zero => exact alike_tooDeep bound (item m)
  | succ n ih =>
    obtain ⟨m, rfl⟩ := Nat.exists_eq_succ_of_ne_zero (Nat.ne_zero_of_lt h)
    have hle := Nat.le_of_succ_le_succ h
    exact (alike_itemBody (alike_type hle (bound + 1)) (ih hle (bound + 1)) (Nat.succ_pos bound)).mono
      (by omega)

/-! ## Calls and forms -/

/-- A rule that reads something of every input and nothing of the empty one. -/
theorem Consumes.advances_always (hp : Consumes p) (hlaw : Lawful p) {e : Fault} (hnil : p [] = .error e)
    (ts : List Token) : Advances p ts := by
  by_cases hne : ts = []
  · subst hne
    intro f rest hok
    rw [hnil] at hok
    cases hok
  · exact hp.advances hlaw hne

theorem type_nil (n : Nat) : ∃ e, type n [] = .error e := by
  cases n with
  | zero => exact ⟨_, rfl⟩
  | succ n => exact ⟨_, typeBody_nil (type n)⟩

theorem advances_type (n : Nat) (ts : List Token) : Advances (type n) ts :=
  have ⟨_, hnil⟩ := type_nil n
  (consumes_type n).advances_always (lawful_type n) hnil ts

theorem advances_tupleElement (n : Nat) (kind : NodeKind) (ts : List Token) :
    Advances (tupleElement (type n) kind) ts := by
  obtain ⟨e, hnil⟩ := type_nil n
  have helement : tupleElement (type n) kind [] = .error e := by
    have hlabels : elementLabels [] = .ok ([], []) := rfl
    rw [tupleElement, node, seq_error (seq_error_right hlabels hnil), andThen_error]
  exact (consumes_tupleElement (lawful_type n) (consumes_type n) kind).advances_always
    (lawful_tupleElement (lawful_type n) kind) helement ts

theorem advances_functionParameter (n : Nat) (ts : List Token) : Advances (functionParameter (type n)) ts :=
  (consumes_functionParameter (lawful_type n)).advances_always (lawful_functionParameter (lawful_type n))
    (e := .expected "parameter name" none) rfl ts

theorem advances_postfixForm {kind : NodeKind} (h : postfixForm (type n) ts = some (kind, p)) :
    Advances p ts :=
  fun f _ hok => ⟨⟨Tree.forestTokens f, ((lawfulForms_postfixForm (lawful_type n)).lawful h).keeps hok⟩,
    progress_postfixForm (lawful_type n) h hok⟩

theorem advances_compositionForm {kind : NodeKind}
    (h : compositionForm (type n) ts = some (kind, p)) : Advances p ts :=
  fun f _ hok => ⟨⟨Tree.forestTokens f, ((lawfulForms_compositionForm (lawful_type n)).lawful h).keeps hok⟩,
    progress_compositionForm (lawful_type n) h hok⟩

end Rule

/-- A text is parsed alike by rules that agree but for the fault of going too deep. -/
theorem parseWith_of_agree {p q : Rule} (h : ∀ bound, Rule.Alike Rule.IsTooDeep bound p q) (root : NodeKind)
    (source : String) :
    parseWith root p source = parseWith root q source ∨
      ∃ offset, parseWith root p source = .error (.nestingTooDeep nestingLimit offset) := by
  unfold parseWith
  cases tokenize source with
  | error e => exact .inl rfl
  | ok tokens =>
    simp only
    rcases ((h (tokens.length + 1)).outcome (Nat.lt_succ_self _)).eq_or with heq | ⟨e, ⟨found, rfl⟩, herror⟩
    · exact .inl (by rw [heq])
    · exact .inr ⟨_, by rw [herror]; rfl⟩

/-- **A step of the scan of a gap takes a character.** The scan ends at once, or takes some characters
    and goes on behind them. -/
theorem scanGap_step (mode : GapMode) (pos : Nat) (cs : List Char) :
    (∃ e, scanGap mode pos cs = .error e) ∨ scanGap mode pos cs = .ok ⟨[], false, cs⟩ ∨
      ∃ mode' taken newline rest, cs = taken ++ rest ∧ 0 < Text.byteSize taken ∧
        scanGap mode pos cs =
          (scanGap mode' (pos + Text.byteSize taken) rest).map (·.push taken newline) := by
  have hpos (c : Char) : 0 < Text.byteSize [c] := Text.byteSize_pos (List.cons_ne_nil c [])
  fun_cases scanGap mode pos cs with
  | case1 => exact .inl ⟨_, rfl⟩
  | case2 | case6 => exact .inr (.inl rfl)
  | case3 | case4 | case9 | case10 | case11 => exact .inr (.inr ⟨_, [_, _], false, _, rfl, by decide, rfl⟩)
  | case5 | case7 | case8 | case12 => exact .inr (.inr ⟨_, [_], _, _, rfl, hpos _, rfl⟩)

open Rule

/-- What parsing takes off its input, call by call and round by round. -/
structure ParsingAdvances : Prop where
  /-- A successful call for an item leaves fewer tokens; it is made only where there is one. -/
  items : ∀ n ts, ts ≠ [] → Advances (item n) ts
  types : ∀ n ts, Advances (type n) ts ∧ (∀ kind, Advances (tupleElement (type n) kind) ts) ∧
    Advances (functionParameter (type n)) ts
  /-- So does every round of every repetition, and so the repetitions are those without guards. -/
  rounds : ∀ n ask p, Repeats (type n) (item n) ask p →
    (∀ ts, ask ts = true → Advances p ts) ∧ many ask p = either ask (p ++ many ask p) nothing
  forms : ∀ n form, form = postfixForm (type n) ∨ form = compositionForm (type n) →
    (∀ ts kind p, form ts = some (kind, p) → Advances p ts) ∧
      ∀ f, wrappings form f = wrapRound (wrappings form) form f
  chains : ∀ n kind link, chain kind (type n) link = linkRound (chain kind (type n) link) kind (type n) link
  /-- A run of tokens is the start of its input. -/
  runs : ∀ comma begun depth last ts,
    (takeRun comma begun depth ts).1 ++ (takeRun comma begun depth ts).2 = ts ∧
    (takeRequirements last begun depth ts).1 ++ (takeRequirements last begun depth ts).2 = ts ∧
    ∀ group rest, takeGroup depth ts = some (group, rest) → group ++ rest = ts ∧ group ≠ []
  /-- One level of the grammar looks at inner types and items only on fewer tokens. -/
  typeLevels : ∀ inner inner' ts, Keeps inner → (∀ us :
    List Token, us.length < ts.length → inner us = inner' us) →
    typeBody inner ts = typeBody inner' ts
  itemLevels : ∀ type type' item item' ts, Keeps type → Keeps item →
    (∀ us : List Token, us.length < ts.length → type us = type' us ∧ item us = item' us) →
    itemBody type item ts = itemBody type' item' ts
  /-- So the nesting budget is not seen by an input of fewer tokens. -/
  budgets : ∀ n m ts, ts.length < n → ts.length < m → type n ts = type m ts ∧ item n ts = item m ts
  /-- A larger budget changes the outcome of a text only if that was the fault of going too deep. -/
  sources : ∀ m source, nestingLimit ≤ m →
    parseSource source = parseWith .sourceFile (many (fun ts => !seesEnd ts) (item m)) source ∨
      ∃ offset, parseSource source = .error (.nestingTooDeep nestingLimit offset)
  soleTypes : ∀ m source, nestingLimit ≤ m →
    parseType source = parseWith .typeRoot
        (type m ++ optional (seesKind .ellipsis) bump ++ require seesEnd "end of type" nothing) source ∨
      ∃ offset, parseType source = .error (.nestingTooDeep nestingLimit offset)
  /-- A step through a gap takes a character. -/
  gaps : ∀ mode pos cs, (∃ e, scanGap mode pos cs = .error e) ∨ scanGap mode pos cs = .ok ⟨[], false, cs⟩ ∨
    ∃ mode' taken newline rest, cs = taken ++ rest ∧ 0 < Text.byteSize taken ∧
      scanGap mode pos cs = (scanGap mode' (pos + Text.byteSize taken) rest).map (·.push taken newline)
  lexemes : ∀ pos c cs lexeme, scanLexeme pos c cs = .ok lexeme →
    lexeme.text ++ lexeme.rest = c :: cs ∧ 0 < Text.byteSize lexeme.text
  /-- The tokens of a source follow each other within it, and none is empty. -/
  tokens : ∀ source tokens, tokenize source = .ok tokens → tokens.Pairwise (fun a b => a.stop ≤ b.start) ∧
    ∀ t ∈ tokens, t.start < t.stop ∧ t.stop ≤ source.utf8ByteSize

/-- **Parsing advances at every step**, from the characters of a gap to the items of a file. -/
theorem parsing_advances : ParsingAdvances := by
  refine ⟨?_, ?_, ?_, ?_, ?_, ?_, ?_, ?_, ?_, ?_, ?_, scanGap_step, ?_, ?_⟩
  · intro n ts hne
    exact (consumes_item n).advances (lawful_item n) hne
  · intro n ts
    exact ⟨advances_type n ts, fun kind => advances_tupleElement n kind ts, advances_functionParameter n ts⟩
  · intro n ask p h
    have hround : ∀ ⦃ts⦄, ask ts = true → Advances p ts :=
      fun ts => h.advances (lawful_type n) (lawful_item n) (consumes_type n) (consumes_item n)
    exact ⟨hround, many_unguarded hround⟩
  · intro n form hform
    have hround : ∀ ⦃ts kind p⦄, form ts = some (kind, p) → Advances p ts := by
      rcases hform with rfl | rfl
      · exact fun ts kind p => advances_postfixForm
      · exact fun ts kind p => advances_compositionForm
    exact ⟨hround, wrappings_unguarded hround⟩
  · intro n kind link
    exact chain_unguarded (lawful_type n).keeps kind link
  · intro comma begun depth last ts
    refine ⟨takeRun_append comma begun depth ts, takeRequirements_append last begun depth ts,
      fun group rest h => ?_⟩
    have happend := takeGroup_append h
    refine ⟨happend, ?_⟩
    rintro rfl
    have hlt := length_lt_of_takeGroup h
    rw [← happend] at hlt
    exact absurd hlt (Nat.lt_irrefl _)
  · intro inner inner' ts hinner h
    exact typeBody_local hinner h
  · intro type type' item item' ts htype hitem h
    exact itemBody_local htype hitem h
  · intro n m ts hn hm
    exact ⟨type_eq_of_length_lt hn hm, item_eq_of_length_lt hn hm⟩
  · intro m source hm
    exact parseWith_of_agree
      (fun bound => Agree.many Yield.respects_eq (alike_item hm bound) _) .sourceFile source
  · intro m source hm
    refine parseWith_of_agree (fun bound => ?_) .typeRoot source
    have htype := alike_type hm bound
    exact Agree.schematic Yield.respects_eq htype htype (Schematic.soleType (n := 0))
  · intro pos c cs lexeme h
    exact ⟨scanLexeme_append h, Text.byteSize_pos (scanLexeme_text_ne_nil h)⟩
  · intro source tokens h
    have hlaid := laid_of_tokensFrom h
    refine ⟨hlaid.pairwise, fun t ht => ?_⟩
    obtain ⟨-, hlt, hstop, -⟩ := hlaid.token_slice ht
    rw [Nat.zero_add, Text.byteSize_toList] at hstop
    exact ⟨hlt, hstop⟩

end SwiftOutline
