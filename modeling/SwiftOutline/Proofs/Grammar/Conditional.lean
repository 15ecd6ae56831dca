import SwiftOutline.Proofs.Grammar.ExtendItems
import SwiftOutline.Proofs.Grammar.TypeParts
import SwiftOutline.Proofs.Token.Enclosed

/-!
# `Conditional` — the tree of a text between directives

A source on lines of its own between `#if DEBUG` and `#endif` is one clause of conditional compilation,
and the items of the clause are those of the source. Three changes lead from one reading to the other,
and each is invisible to the rules for a reason of its own: the tokens move on (no rule sees an offset),
the first of them goes to a new line (no item looks at the gap in front of it), and the directive stands
behind them (it ends what the end of the text ended).
-/

namespace SwiftOutline

open Token

/-! ## Tokens of the clause -/

namespace Token

/-- The tokens go on by `base` bytes, and but for the gap in front of the first of them they stay as they
are. -/
structure Enclosing (base : Nat) (ts : List Token) (g : Token → Token) : Prop where
  start : ∀ u, (g u).start = u.start + base
  kind : ∀ u, (g u).kind = u.kind
  text : ∀ u, (g u).text = u.text
  faithful : Faithful g ts

theorem unseen_shiftUp (base : Nat) : Unseen (shiftUp base) where
  kind _ := rfl
  text _ := rfl
  newlineBefore _ := rfl
  isAdjacent _ := rfl

theorem enclosing_shiftUp (base : Nat) (ts : List Token) : Enclosing base ts (shiftUp base) := by
  constructor
  · intro u
    rfl
  · intro u
    rfl
  · intro u
    rfl
  · constructor
    all_goals exact fun _ _ => rfl

/-- The change that takes the first token of a text to a line of its own. -/
def breakAt (first u : Token) : Token := if u = first then u.broken else u

theorem breakAt_self (t : Token) : breakAt t t = t.broken := if_pos rfl

variable {t : Token}

theorem breakAt_of_ne {u : Token} (h : u ≠ t) : breakAt t u = u := if_neg h

theorem regap_breakAt {ts : List Token} (hfresh : t ∉ ts) : Regap (breakAt t) t ts where
  kind := by
    rw [breakAt_self]
    rfl
  text := by
    rw [breakAt_self]
    rfl
  fixed u hu := breakAt_of_ne fun heq => hfresh (heq ▸ hu)

theorem enclosing_breakAt (base : Nat) {ts : List Token} (hfresh : t ∉ ts) :
    Enclosing base (t :: ts) fun u => (breakAt t u).shiftUp base := by
  have hsame (u : Token) : breakAt t u = u.broken ∨ breakAt t u = u := by
    by_cases heq : u = t
    · exact .inl (if_pos heq)
    · exact .inr (breakAt_of_ne heq)
  have hkind (u : Token) : ((breakAt t u).shiftUp base).kind = u.kind := by
    rcases hsame u with h | h <;> rw [h] <;> rfl
  have htext (u : Token) : ((breakAt t u).shiftUp base).text = u.text := by
    rcases hsame u with h | h <;> rw [h] <;> rfl
  refine ⟨?_, hkind, htext, fun u _ => hkind u, fun u _ => htext u, ?_, ?_⟩
  · intro u
    rcases hsame u with h | h <;> rw [h] <;> rfl
  · intro u hu
    rw [(regap_breakAt hfresh).fixed u hu]
    rfl
  · intro u hu
    rw [(regap_breakAt hfresh).fixed u hu]
    rfl

end Token

/-- Whether brackets match hangs on the kinds and texts of the tokens alone. -/
theorem bracketsMatch_map {g : Token → Token} (hkind : ∀ u, (g u).kind = u.kind)
    (htext : ∀ u, (g u).text = u.text) (stack : List String) (ts : List Token) :
    bracketsMatch stack (ts.map g) = bracketsMatch stack ts := by
  induction ts generalizing stack with
  | nil => rfl
  | cons t ts ih =>
    have hopen : isOpener (g t) = isOpener t := by
      unfold isOpener
      rw [hkind t, htext t]
    have hclose : isCloser (g t) = isCloser t := by
      unfold isCloser
      rw [hkind t, htext t]
    rw [List.map_cons, bracketsMatch, bracketsMatch, hopen, hclose, htext t, ih, ih, ih]

namespace Rule

/-! ## Items of the clause -/

theorem headBlind_items (n : Nat) : HeadBlind (many (fun ts => !seesEnd ts) (item n)) := by
  have hask : Lookahead.HeadBlind fun ts => !seesEnd ts := fun _ _ _ _ _ => rfl
  exact (headBlind_item n).many hask (fun _ _ _ => length_lt_of_item) (lawful_item n).keeps

variable {ts : List Token} {f : List Tree}

/-- The items of a text, read from its tokens as they stand in the clause. -/
theorem exists_enclosing {n : Nat} (base : Nat) {e : Token} (he : EndsClause [e])
    (hfresh : ∀ t us, ts = t :: us → t ∉ us) (h : many (fun ts => !seesEnd ts) (item n) ts = .ok (f, [])) :
    ∃ g e', Token.Enclosing base ts g ∧ EndsClause [e'] ∧
      breakLine (ts.map (shiftUp base) ++ [e]) = ts.map g ++ [e'] ∧
      many (fun ts => !seesEnd ts) (item n) (ts.map g) = .ok (f.map (Tree.relabel g), []) := by
  cases ts with
  | nil =>
    -- a text without tokens is a gap, and the directive itself goes to the new line
    obtain ⟨e', heq, hkind, htext, -⟩ := he
    cases heq
    rw [many_of_not rfl] at h
    cases h
    exact ⟨_, e.broken, enclosing_shiftUp base [], ⟨_, rfl, hkind, htext, rfl⟩, rfl, many_of_not rfl⟩
  | cons t ts =>
    have hfresh' := hfresh t ts rfl
    have hregap := regap_breakAt hfresh'
    have hbroken := headBlind_items n hregap h
    have hlaw : Lawful (many (fun ts => !seesEnd ts) (item n)) :=
      (lawful_item n).many Lookahead.natural_seesEnd.not
    have hmoved := hlaw.natural (unseen_shiftUp base) ((t :: ts).map (breakAt t))
    rw [hregap.map_cons, hbroken, relabelOutcome_ok, Tree.relabelForest_relabel] at hmoved
    have hmap : (t :: ts).map (fun u => (breakAt t u).shiftUp base) =
        (breakAt t t :: ts).map (shiftUp base) := by
      rw [← hregap.map_cons, List.map_map]
      rfl
    refine ⟨_, e, enclosing_breakAt base hfresh', he, ?_, ?_⟩
    · rw [hmap, breakAt_self]
      rfl
    · rw [hmap]
      exact hmoved

/-! ## The clause -/

/-- What conditional compilation of some items under one condition of one word looks like. -/
def conditionalTree (opening condition closing : Token) (f : List Tree) : Tree :=
  .node .ifConfigDecl [.node .ifConfigClause
    (.token opening :: .node .ifConfigCondition [.token condition] :: f), .token closing]

theorem ifConfigCondition_word {t : Token} (ht : t.newlineBefore = false) (hline : seesNewline ts = true) :
    ifConfigCondition (t :: ts) = .ok ([.node .ifConfigCondition [.token t]], ts) := by
  have hasks : (!(seesEnd (t :: ts) || seesNewline (t :: ts))) = true := by
    show (!t.newlineBefore) = true
    rw [ht]
    rfl
  have hstops : (!(seesEnd ts || seesNewline ts)) = false := by
    rw [hline, Bool.or_true]
    rfl
  have hbump : bump (t :: ts) = .ok ([.token t], ts) := rfl
  rw [ifConfigCondition, require, either_of_yes hasks]
  exact node_ok (seq_ok hbump (many_of_not hstops))

/-- **Items between directives are one clause of conditional compilation.** -/
theorem ifConfig_enclosed {item : Rule} (opening condition : Token) {closing : Token}
    (hopening : opening.text = "#if") (hcondition : condition.newlineBefore = false)
    (hline : seesNewline ts = true) (hclosing : EndsClause [closing])
    (hitems : many (fun ts => !seesClauseEnd ts)
      (require (fun ts => !(seesEnd ts || sees "\x7d" ts)) "'#endif'" item) ts = .ok (f, [closing])) :
    ifConfig item (opening :: condition :: ts) = .ok ([conditionalTree opening condition closing f], []) := by
  have hbump (t : Token) (ts : List Token) : bump (t :: ts) = .ok ([.token t], ts) := rfl
  have helse : sees "#else" (opening :: condition :: ts) = false := by
    show (opening.text == "#else") = false
    rw [hopening]
    rfl
  have hhead : either (sees "#else") bump (bump ++ ifConfigCondition) (opening :: condition :: ts) =
      .ok ([.token opening, .node .ifConfigCondition [.token condition]], ts) := by
    rw [either_of_no helse]
    exact seq_ok (hbump _ _) (ifConfigCondition_word hcondition hline)
  have hclause : ifConfigClause item (opening :: condition :: ts) = _ := node_ok (seq_ok hhead hitems)
  have hlast : (seesClauseEnd [closing] && !sees "#endif" [closing]) = false := by
    obtain ⟨e, heq, -, htext, -⟩ := hclosing
    cases heq
    have hsees : sees "#endif" [closing] = true := beq_iff_eq.mpr htext
    rw [hsees]
    exact Bool.and_false _
  exact node_ok (seq_ok (seq_ok hclause (many_of_not hlast)) (hbump closing []))

/-! ## Sources -/

/-- What a bound on the levels lets a rule read is what the rule for sources reads. -/
theorem parseSource_of_items {n : Nat} (hn : n ≤ nestingLimit) {source : String}
    (htokens : tokenize source = .ok ts) (h : many (fun ts => !seesEnd ts) (item n) ts = .ok (f, [])) :
    parseSource source = .ok (.node .sourceFile f) := by
  have hagree := Agree.many Yield.respects_eq (alike_item hn (ts.length + 1)) (fun ts => !seesEnd ts)
  have hitems : sourceItems ts = .ok (f, []) := hagree.ok (Nat.lt_succ_self _) h
  simp only [parseSource, parseWith, htokens, hitems]

/-- **A source between directives is one clause with the items of the source**, if its brackets match and
its items leave a level for the clause. -/
theorem parseSource_enclosed {source : String} (htokens : tokenize source = .ok ts)
    (hbrackets : bracketsMatch [] ts = true)
    (hitems : many (fun ts => !seesEnd ts) (item (nestingLimit - 1)) ts = .ok (f, [])) :
    ∃ g e, Token.Enclosing 10 ts g ∧ parseSource ("#if DEBUG\n" ++ source ++ "\n#endif") =
      .ok (.node .sourceFile [conditionalTree ifDirective debugFlag e (f.map (Tree.relabel g))]) := by
  obtain ⟨lead, start, henclosed⟩ := tokenize_enclosed htokens
  have hend : EndsClause [endif lead start] := ⟨_, rfl, rfl, rfl, rfl⟩
  have hfresh : ∀ t us, ts = t :: us → t ∉ us := by
    rintro t us rfl
    exact not_mem_of_isInfix htokens List.infix_rfl
  obtain ⟨g, e, hg, hclosing, hbreak, hread⟩ := exists_enclosing 10 hend hfresh hitems
  have hline : seesNewline (ts.map g ++ [e]) = true := by
    rw [← hbreak]
    cases ts <;> rfl
  rw [hbreak] at henclosed
  have hlex : ∀ t ∈ ts.map g, t.Lexical := by
    intro t ht
    have hmem : t ∈ ts.map g ++ [e] := List.mem_append_left _ ht
    exact lexical_of_tokensFrom henclosed t (List.mem_cons_of_mem _ (List.mem_cons_of_mem _ hmem))
  have hclosable : Closable (ts.map g) := ⟨[], (bracketsMatch_map hg.kind hg.text [] ts).trans hbrackets⟩
  have hclause := ifConfig_enclosed ifDirective debugFlag rfl rfl hline hclosing
    (hclosing.clauseItems hlex hclosable hread)
  refine ⟨g, e, hg, parseSource_of_items Nat.le.refl henclosed ?_⟩
  have hitem : item nestingLimit (ifDirective :: debugFlag :: (ts.map g ++ [e])) =
      .ok ([conditionalTree ifDirective debugFlag e (f.map (Tree.relabel g))], []) := by
    show itemBody _ _ _ = _
    rw [itemBody_ifConfig rfl rfl]
    exact hclause
  exact many_round_ok rfl hitem (Nat.succ_pos _) (many_of_not rfl)

end Rule

end SwiftOutline
