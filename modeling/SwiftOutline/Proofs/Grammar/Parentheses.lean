import SwiftOutline.Proofs.Grammar.TypeParts

/-!
# `Parentheses` — a type in many pairs of parentheses

Each pair of parentheses around a type is one level. So a name in `n` pairs is read if there are more
than `n` levels, and with fewer the reading ends at the first token for which no level is left.
-/

namespace SwiftOutline

open Rule

/-! ## The text and its tokens -/

/-- The type `Int` in pairs of parentheses. -/
def parenthesized (n : Nat) : String :=
  String.ofList (List.replicate n '(' ++ ("Int".toList ++ List.replicate n ')'))

/-- A parenthesis that opens or closes, behind no gap. -/
def parenToken (opens : Bool) (pos : Nat) : Token := ⟨.punct, "", if opens then "(" else ")", pos, false⟩

def intToken (pos : Nat) : Token := ⟨.identifier, "", "Int", pos, false⟩

/-- A number of parentheses one after another. -/
def parenTokens (opens : Bool) (pos : Nat) : Nat → List Token
  | 0 => []
  | n + 1 => parenToken opens pos :: parenTokens opens (pos + 1) n

/-- The tokens from `pos` on: `n` parentheses that open, the name, and `k` that close, the first of them
at `close`. -/
def parenthesizedTokens (pos n close k : Nat) : List Token :=
  parenTokens true pos n ++ intToken (pos + n) :: parenTokens false close k

variable {pos n : Nat} {cs : List Char} {ts : List Token}

theorem tokensFrom_paren (opens : Bool) (h : tokensFrom (pos + 1) cs = .ok ts) :
    tokensFrom pos ((if opens then '(' else ')') :: cs) = .ok (parenToken opens pos :: ts) := by
  cases opens with
  | true =>
    have hgap : scanGap .between pos ('(' :: cs) = .ok ⟨[], false, '(' :: cs⟩ :=
      scanGap_stop (by decide) rfl pos
    have hfirst := tokensFrom_of_gap hgap rfl (show scanLexeme _ '(' cs = .ok ⟨.punct, ['('], cs⟩ from rfl) h
    exact hfirst
  | false =>
    have hgap : scanGap .between pos (')' :: cs) = .ok ⟨[], false, ')' :: cs⟩ :=
      scanGap_stop (by decide) rfl pos
    have hfirst := tokensFrom_of_gap hgap rfl (show scanLexeme _ ')' cs = .ok ⟨.punct, [')'], cs⟩ from rfl) h
    exact hfirst

theorem tokensFrom_parens (opens : Bool) (h : tokensFrom (pos + n) cs = .ok ts) :
    tokensFrom pos (List.replicate n (if opens then '(' else ')') ++ cs) =
      .ok (parenTokens opens pos n ++ ts) := by
  induction n generalizing pos with
  | zero => exact h
  | succ n ih =>
    refine tokensFrom_paren opens (ih ?_)
    rw [Nat.add_assoc, Nat.add_comm 1 n]
    exact h

theorem tokensFrom_int (hcs : cs.takeWhile isIdentifierPart = []) (h : tokensFrom (pos + 3) cs = .ok ts) :
    tokensFrom pos ("Int".toList ++ cs) = .ok (intToken pos :: ts) := by
  have hgap : scanGap .between pos ("Int".toList ++ cs) = .ok ⟨[], false, "Int".toList ++ cs⟩ :=
    scanGap_stop (by decide) rfl pos
  have hdrop : cs.dropWhile isIdentifierPart = cs := by
    have hsplit := List.takeWhile_append_dropWhile (p := isIdentifierPart) (l := cs)
    rwa [hcs, List.nil_append] at hsplit
  have hscan : scanLexeme (pos + Text.byteSize []) 'I' ('n' :: 't' :: cs) =
      .ok ⟨.identifier, "Int".toList, cs⟩ := by
    rw [scanLexeme, if_pos (by decide), scanIdentifier]
    have hall : ∀ c ∈ "Int".toList, isIdentifierPart c = true := List.all_eq_true.mp rfl
    have htake : ('I' :: 'n' :: 't' :: cs).takeWhile isIdentifierPart = "Int".toList := by
      rw [show 'I' :: 'n' :: 't' :: cs = "Int".toList ++ cs from rfl, List.takeWhile_append_of_pos hall, hcs]
      rfl
    have hrest : ('I' :: 'n' :: 't' :: cs).dropWhile isIdentifierPart = cs := by
      rw [show 'I' :: 'n' :: 't' :: cs = "Int".toList ++ cs from rfl,
        List.dropWhile_append_of_pos hall, hdrop]
    rw [htake, hrest]
    rfl
  have hfirst := tokensFrom_of_gap hgap rfl hscan h
  exact hfirst

theorem tokenize_parenthesized (n : Nat) :
    tokenize (parenthesized n) = .ok (parenthesizedTokens 0 n (n + 3) n) := by
  have hclose : tokensFrom (0 + n + 3) (List.replicate n ')') = .ok (parenTokens false (n + 3) n) := by
    have h := tokensFrom_parens false (tokensFrom_nil (n + 3 + n))
    rw [List.append_nil, List.append_nil] at h
    rw [Nat.zero_add]
    exact h
  have hstop : (List.replicate n ')').takeWhile isIdentifierPart = [] := by
    cases n <;> rfl
  have hopen := tokensFrom_parens true (tokensFrom_int hstop hclose)
  rw [tokenize, parenthesized, String.toList_ofList]
  exact hopen

/-! ## Reading -/

section

variable {inner : Rule} {pos : Nat} {ts : List Token}

theorem simpleType_paren :
    simpleType inner (parenToken true pos :: ts) = postfixType inner (parenToken true pos :: ts) := by
  rw [simpleType, either_of_no rfl, either_of_no rfl, either_of_no rfl]

theorem primaryType_paren :
    primaryType inner (parenToken true pos :: ts) = parenType inner (parenToken true pos :: ts) :=
  either_of_yes rfl

/-- The type inside parentheses begins with no label and with no parenthesis that closes. -/
structure StartsInside (ts : List Token) : Prop where
  nonempty : seesEnd ts = false
  unclosed : sees ")" ts = false
  labels : elementLabels ts = .ok ([], ts)

theorem startsInside_paren (pos : Nat) (ts : List Token) : StartsInside (parenToken true pos :: ts) where
  nonempty := rfl
  unclosed := rfl
  labels := by rw [elementLabels, either_of_no rfl, optional_of_no rfl]

theorem startsInside_int (pos close : Nat) (ts : List Token) :
    StartsInside (intToken pos :: parenToken false close :: ts) where
  nonempty := rfl
  unclosed := rfl
  labels := by rw [elementLabels, either_of_no rfl, optional_of_no rfl]

/-- **Parentheses fail with the type inside them.** -/
theorem typeBody_paren_error (pos : Nat) (hts : StartsInside ts) {e : Fault} (h : inner ts = .error e) :
    typeBody inner (parenToken true pos :: ts) = .error e := by
  have helement : tupleElement inner .tupleTypeElement ts = .error e := by
    have hlabeled : (elementLabels ++ inner : Rule) ts = .error e := seq_error_right hts.labels h
    rw [tupleElement, node, seq_error hlabeled, andThen_error]
  have helements : elements (tupleElement inner .tupleTypeElement) ts = .error e := by
    refine many_error (by rw [hts.unclosed]; rfl) ?_
    rw [require, either_of_yes (by rw [hts.nonempty]; rfl)]
    exact helement
  have hlist : node .tupleTypeElementList (elements (tupleElement inner .tupleTypeElement)) ts =
      .error e := by
    rw [node, helements, andThen_error]
  have hparen : parenType inner (parenToken true pos :: ts) = .error e := by
    rw [parenType, closing, seq_error (seq_error_right (bump_cons _ ts) hlist), andThen_error]
  rw [typeBody, wrapping, simpleType_paren, postfixType, wrapping, primaryType_paren, hparen,
    andThen_error, andThen_error]

variable {close k : Nat}

/-- Behind a type, nothing follows or a parenthesis closes: the type is at its end. -/
theorem typeBody_of_primaryType {v : Tree} (hsimple : simpleType inner ts = postfixType inner ts)
    (h : primaryType inner ts = .ok ([v], parenTokens false close k)) :
    typeBody inner ts = .ok ([v], parenTokens false close k) := by
  have hpostfix : postfixForm inner (parenTokens false close k) = none := by cases k <;> rfl
  have hcomposition : compositionForm inner (parenTokens false close k) = none := by cases k <;> rfl
  have hread : simpleType inner ts = .ok ([v], parenTokens false close k) := by
    rw [hsimple]
    refine wrapping_ok h ?_
    rw [wrappings, hpostfix]
  refine wrapping_ok hread ?_
  rw [wrappings, hcomposition]

/-- What a type in parentheses of its own looks like. -/
def groupTree (opening : Token) (u : Tree) (closing : Token) : Tree :=
  .node .tupleType [.token opening, .node .tupleTypeElementList [.node .tupleTypeElement [u]], .token closing]

section

variable {closing : Token} (hclosing : closing.text = ")" ∧ closing.kind = .punct) {rest : List Token}
include hclosing

/-- A closing parenthesis right behind the type of an element. -/
theorem elementRest_closing : elementRest (closing :: rest) = .ok ([], closing :: rest) := by
  have hother {text : String} (htext : ")" ≠ text) : sees text (closing :: rest) = false := by
    show (closing.text == text) = false
    rw [hclosing.1, beq_eq_false_iff_ne]
    exact htext
  have hclose : sees ")" (closing :: rest) = true := beq_iff_eq.mpr hclosing.1
  have hellipsis : seesKind .ellipsis (closing :: rest) = false := by
    show (closing.kind == .ellipsis) = false
    rw [hclosing.2]
    rfl
  refine seq_ok (seq_ok (optional_of_no hellipsis) (optional_of_no (hother (by decide)))) ?_
  rw [either_of_no (hother (by decide)), require, either_of_yes hclose]
  rfl

/-- A list with one element. -/
theorem elements_single {element : Rule} {f : List Tree} (hsome : seesEnd ts = false)
    (hunclosed : sees ")" ts = false) (h : element ts = .ok (f, closing :: rest))
    (hlt : (closing :: rest).length < ts.length) : elements element ts = .ok (f, closing :: rest) := by
  have hclose : sees ")" (closing :: rest) = true := beq_iff_eq.mpr hclosing.1
  have hround : require (fun ts => !seesEnd ts) "')'" element ts = .ok (f, closing :: rest) := by
    rw [require, either_of_yes (by rw [hsome]; rfl)]
    exact h
  have hend : elements element (closing :: rest) = .ok ([], closing :: rest) :=
    many_of_not (by rw [hclose]; rfl)
  have hlist := many_round_ok (by rw [hunclosed]; rfl) hround hlt hend
  rwa [List.append_nil] at hlist

/-- A list whose only element is a type. -/
theorem elements_of_inside (hinner : Consumes inner) (hts : StartsInside ts) {u : Tree}
    (h : inner ts = .ok ([u], closing :: rest)) (kind : NodeKind) :
    elements (tupleElement inner kind) ts = .ok ([.node kind [u]], closing :: rest) := by
  have hne : ts ≠ [] := by
    rintro rfl
    cases hts.nonempty
  have helement : tupleElement inner kind ts = .ok ([.node kind [u]], closing :: rest) :=
    node_ok (seq_ok (seq_ok hts.labels h) (elementRest_closing hclosing))
  exact elements_single hclosing hts.nonempty hts.unclosed helement (hinner hne h)

end

/-- **Parentheses around a type** are a tuple with one element, if no arrow follows. -/
theorem parenType_of_inside (pos : Nat) (hinner : Consumes inner) (hts : StartsInside ts) {u : Tree}
    {closing : Token} {rest : List Token} (hclosing : closing.text = ")" ∧ closing.kind = .punct)
    (h : inner ts = .ok ([u], closing :: rest)) (harrow : seesFunctionArrow rest = false) :
    parenType inner (parenToken true pos :: ts) =
      .ok ([groupTree (parenToken true pos) u closing], rest) := by
  have helements := elements_of_inside hclosing hinner hts h .tupleTypeElement
  have hlist : (bump ++ node .tupleTypeElementList (elements (tupleElement inner .tupleTypeElement)) ++
      bump : Rule)
      (parenToken true pos :: ts) = .ok (_, rest) :=
    seq_ok (seq_ok (bump_cons (parenToken true pos) ts) (node_ok helements)) (bump_cons closing rest)
  rw [parenType, closing_ok hlist (by rw [if_neg (Bool.eq_false_iff.mp harrow)]; rfl),
    if_neg (Bool.eq_false_iff.mp harrow)]
  rfl

theorem typeBody_paren (pos : Nat) (hinner : Consumes inner) (hts : StartsInside ts) {u : Tree}
    (h : inner ts = .ok ([u], parenTokens false close (k + 1))) :
    ∃ v, typeBody inner (parenToken true pos :: ts) = .ok ([v], parenTokens false (close + 1) k) := by
  have harrow : seesFunctionArrow (parenTokens false (close + 1) k) = false := by
    rw [seesFunctionArrow]
    cases k with
    | zero => rw [parenTokens, afterEffects?]; rfl
    | succ k => rw [parenTokens, afterEffects?]; rfl
  have hparen := parenType_of_inside pos hinner hts ⟨rfl, rfl⟩ h harrow
  rw [← primaryType_paren] at hparen
  exact ⟨_, typeBody_of_primaryType simpleType_paren hparen⟩

theorem typeBody_int :
    typeBody inner (intToken pos :: parenTokens false close k) =
      .ok ([.node .identifierType [.token (intToken pos)]], parenTokens false close k) := by
  refine typeBody_of_primaryType ?_ ?_
  · rw [simpleType]
    cases k with
    | zero => rw [either_of_no rfl, either_of_no rfl, either_of_no rfl]
    | succ k => rw [either_of_no rfl, either_of_no rfl, either_of_no rfl]
  · rw [primaryType, either_of_no rfl, either_of_no rfl, require, either_of_yes rfl]
    refine node_ok (seq_ok (bump_cons _ _) (optional_of_no ?_))
    cases k <;> rfl

end

/-! ## Levels -/

theorem startsInside_parenthesizedTokens (pos n close k : Nat) :
    StartsInside (parenthesizedTokens pos n close (k + 1)) := by
  cases n with
  | zero => exact startsInside_int pos close _
  | succ n => exact startsInside_paren pos _

/-- **With more levels than pairs of parentheses the type is read.** -/
theorem type_within {b : Nat} (h : n < b) (pos close k : Nat) :
    ∃ v, type b (parenthesizedTokens pos n close (n + k)) = .ok ([v], parenTokens false (close + n) k) := by
  induction b generalizing n pos k with
  | zero => omega
  | succ b ih =>
    cases n with
    | zero =>
      rw [Nat.zero_add]
      exact ⟨_, typeBody_int⟩
    | succ n =>
      obtain ⟨u, hu⟩ := ih (Nat.lt_of_succ_lt_succ h) (pos + 1) (k + 1)
      have hcount : n + 1 + k = n + (k + 1) := by omega
      have hname : pos + (n + 1) = pos + 1 + n := by omega
      have hread := typeBody_paren pos (consumes_type b)
        (startsInside_parenthesizedTokens (pos + 1) n close (n + k)) hu
      rw [parenthesizedTokens, parenTokens, hcount, hname]
      exact hread

/-- **With fewer levels the reading ends at the first token for which no level is left.** -/
theorem type_beyond {b : Nat} (h : b ≤ n) (pos close k : Nat) :
    ∃ t, t.start = pos + b ∧ type b (parenthesizedTokens pos n close (n + k)) =
      .error (.tooDeep (some t)) := by
  induction b generalizing n pos k with
  | zero =>
    cases n with
    | zero => exact ⟨intToken pos, rfl, rfl⟩
    | succ n => exact ⟨parenToken true pos, rfl, rfl⟩
  | succ b ih =>
    obtain ⟨n, rfl⟩ : ∃ m, n = m + 1 := ⟨n - 1, by omega⟩
    obtain ⟨t, hstart, ht⟩ := ih (Nat.le_of_succ_le_succ h) (pos + 1) (k + 1)
    refine ⟨t, by omega, ?_⟩
    have hcount : n + 1 + k = n + (k + 1) := by omega
    have hname : pos + (n + 1) = pos + 1 + n := by omega
    have hread := typeBody_paren_error pos
      (startsInside_parenthesizedTokens (pos + 1) n close (n + k)) ht
    rw [parenthesizedTokens, parenTokens, hcount, hname]
    exact hread

/-! ## Parsing -/

/-- A type in fewer pairs of parentheses than there are levels is parsed. -/
theorem parseType_parenthesized (h : n < nestingLimit) : ∃ tree, parseType (parenthesized n) = .ok tree := by
  obtain ⟨v, hv⟩ := type_within h 0 (n + 3) 0
  have hsole : soleType (parenthesizedTokens 0 n (n + 3) n) = .ok ([v], []) :=
    seq_ok (seq_ok hv (optional_of_no rfl)) (either_of_yes rfl)
  refine ⟨.node .typeRoot [v], ?_⟩
  rw [parseType, parseWith, tokenize_parenthesized]
  simp only [hsole]

/-- In more pairs it is refused at the parenthesis, or the name, for which no level is left. -/
theorem parseType_parenthesized_deep (h : nestingLimit ≤ n) :
    parseType (parenthesized n) = .error (.nestingTooDeep nestingLimit nestingLimit) := by
  obtain ⟨t, hstart, ht⟩ := type_beyond h 0 (n + 3) 0
  have hsole : soleType (parenthesizedTokens 0 n (n + 3) n) = .error (.tooDeep (some t)) :=
    seq_error (seq_error ht)
  rw [parseType, parseWith, tokenize_parenthesized]
  simp only [hsole, ParseError.ofFault, Option.map_some, Option.getD_some, hstart, Nat.zero_add]

end SwiftOutline
