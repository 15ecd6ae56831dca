import SwiftOutline.Proofs.Grammar.TypeReading
import SwiftOutline.Proofs.Grammar.TypeShape
import SwiftOutline.Proofs.Grammar.TypeText
import SwiftOutline.Proofs.Grammar.TypeTokens

/-!
# `TypeRoundTrip` — reading a type inverts writing it

The tokens that a type is written with are alike wherever they stand, and the tokens of its text are not.
A rule for types sees no places, so what it reads from the one it reads from the other. The text is first
read with a space in front of it, so that each of its tokens has one.
-/

namespace SwiftOutline

open Token

theorem unseen_unplaced : Token.Unseen unplaced where
  kind _ := rfl
  text _ := rfl
  newlineBefore _ := rfl
  isAdjacent _ := rfl

theorem joined_unplaced (ts : List Token) : joined (ts.map unplaced) = joined ts := by
  cases ts with
  | nil => rfl
  | cons t ts =>
    rw [List.map_cons, joined, joined, List.map_map]
    rfl

/-- What a rule reads from tokens without their places it reads from the tokens themselves. -/
theorem Rule.Lawful.of_unplaced {p : Rule} (hp : Lawful p) {ts : List Token} {v : Tree}
    (h : p (ts.map unplaced) = .ok ([v], [])) :
    ∃ u, p ts = .ok ([u], []) ∧ u.relabel unplaced = v := by
  rw [hp.natural unseen_unplaced] at h
  cases hts : p ts with
  | error e =>
    rw [hts] at h
    cases h
  | ok outcome =>
    obtain ⟨f, rest⟩ := outcome
    rw [hts, relabelOutcome_ok, Except.ok.injEq, Prod.mk.injEq] at h
    obtain ⟨hf, hrest⟩ := h
    rw [List.map_eq_nil_iff] at hrest
    obtain ⟨u, rfl, hu⟩ := List.map_eq_singleton_iff.mp hf
    exact ⟨u, by rw [hrest], hu⟩

/-- A type is read from its text with a space in front of it. -/
theorem TypeExpr.spaced (t : TypeExpr) (hn : t.nesting ≤ nestingLimit) :
    ∃ (source : String) (u : Tree), u.IsPart source ∧ u.ReadAsType ∧ u.relabel unplaced = t.tree ∧
      u.text = t.text := by
  obtain ⟨ts, hts, hmap⟩ := rereads_tokensOf t.chunks 0
  have hread := readsTypes_type nestingLimit t hn [] (.inl rfl)
  rw [List.append_nil, ← hmap] at hread
  obtain ⟨u, htype, hu⟩ := (Rule.lawful_type nestingLimit).of_unplaced hread
  have htokens : u.tokens = ts := by
    have hkeeps := (Rule.lawful_type nestingLimit).keeps htype
    rwa [Tree.forestTokens_singleton, List.append_nil] at hkeeps
  let source := String.ofList (layout (tokensOf t.chunks))
  have htokenize : tokenize source = .ok ts := by
    rw [tokenize, String.toList_ofList, hts]
  have hparse : parseType source = .ok (.node .typeRoot [u]) := by
    unfold parseType parseWith
    simp only [htokenize, Rule.soleType_of_type htype]
  refine ⟨source, u, ?_, ⟨nestingLimit, Nat.le_refl _, ts, [], lexical_of_tokensFrom hts, htype⟩, hu, ?_⟩
  · exact (isPart_of_parseType hparse).contains (.child .self (List.mem_singleton_self u))
  · rw [Tree.text, htokens, TypeExpr.text, ← hmap, joined_unplaced]

/-- **Reading a type inverts writing it.** The text of every type that is not nested too deep is read as
a single type, with the tree of the type it was written from, and no other type has that tree. -/
theorem parseType_inverts_text (t : TypeExpr) (hn : t.nesting ≤ nestingLimit) :
    ∃ u, parseType t.text = .ok (.node .typeRoot [u]) ∧ u.bare = t.tree.bare ∧
      ∀ t' : TypeExpr, t'.tree.bare = u.bare → t' = t := by
  obtain ⟨source, u, hpart, hread, hu, htext⟩ := t.spaced hn
  obtain ⟨first, ts, htokens⟩ := List.exists_cons_of_ne_nil hread.tokens_ne_nil
  -- without the space the first token loses its gap and all places move, which a bare tree does not show
  have hparse := parseType_of_readAsType hpart hread htokens
  rw [htext] at hparse
  have hbare : (u.relabel (Token.excerpt first)).bare = t.tree.bare := by
    rw [← hu, Tree.bare, Tree.bare, Tree.relabel_relabel, Tree.relabel_relabel]
    refine Tree.relabel_congr u ?_
    intro v _
    simp only [Token.bare, Token.kind_excerpt, Token.text_excerpt, Token.unplaced]
  refine ⟨_, hparse, hbare, ?_⟩
  intro t' ht'
  exact TypeExpr.tree_inj (ht'.trans hbare)

/-- A function that takes a labelled and a variadic argument, behind a specifier, an attribute and the
other operand of a composition. -/
theorem parseType_inverts_text_function :
    let key : TypeExpr := .operand (.closed (.plain .bare (.name ⟨"Key", by decide⟩ []) []))
    let index : TypeExpr := .operand (.closed (.plain (.someOrAny false) (.name ⟨"Set", by decide⟩ [key])
      [.member ⟨⟨"Index", by decide⟩, by decide⟩ []]))
    let table : TypeExpr := .operand (.closed (.bracketed .bare rfl (.dictionary key key) [.optional]))
    let t : TypeExpr := .both (.plain .suppressed (.name ⟨"Copyable", by decide⟩ []) [])
      (.operand (.function (.marked [⟨⟨"sending", by decide⟩, by decide⟩] [⟨"escaping", by decide⟩] rfl)
        [.mk (.two ⟨"for", by decide⟩ ⟨"each", by decide⟩) index false, .mk .none table true]
        [.async, .throws] (.operand (.closed (.plain .bare (.tuple []) [.metatype false])))))
    t.text = "~ Copyable & sending @escaping ( for each : some Set < Key > . Index , " ++
        "[ Key : Key ] ? ... ) async throws -> ( ) . Type" ∧ t.nesting ≤ nestingLimit ∧
      ∃ u, parseType t.text = .ok (.node .typeRoot [u]) ∧ u.bare = t.tree.bare ∧
        ∀ t' : TypeExpr, t'.tree.bare = u.bare → t' = t :=
  ⟨by decide +kernel, by decide, parseType_inverts_text _ (by decide)⟩

end SwiftOutline
