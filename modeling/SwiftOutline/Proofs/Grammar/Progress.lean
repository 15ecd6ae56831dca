import SwiftOutline.Proofs.Grammar.LawfulRules

/-!
# `Progress` — rules that read at least one token

A rule makes progress if it never succeeds without reading a token, as long as there is one to read.
Types and items do, at every nesting budget, so no list of them ends because a round reads nothing: it
ends where its lookahead says so.
-/

namespace SwiftOutline

open Lookahead List

namespace Rule

variable {p q : Rule} {f : List Tree} {ts rest : List Token}

/-- The rule takes at least one token from an input that has any. -/
def Consumes (p : Rule) : Prop :=
  ∀ ⦃ts : List Token⦄ ⦃f : List Tree⦄ ⦃rest : List Token⦄,
    ts ≠ [] → p ts = .ok (f, rest) → rest.length < ts.length

/-- What is left is no more than the input. -/
theorem LawfulFor.length_le (hp : Lawful p) (h : p ts = .ok (f, rest)) : rest.length ≤ ts.length := by
  rw [← hp.keeps h, length_append]
  exact Nat.le_add_left _ _

/-! ## Putting rules together -/

theorem consumes_fail (what : String) : Consumes (fail what) := by
  intro ts f rest _ h
  cases h

theorem consumes_tooDeep : Consumes tooDeep := by
  intro ts f rest _ h
  cases h

/-- There is a first token, and it is read. -/
theorem consumes_bumps (n : Nat) : Consumes (bumps (n + 1)) := by
  intro ts f rest hne h
  cases h
  have hpos := length_pos_iff.mpr hne
  rw [length_drop]
  omega

theorem consumes_bump : Consumes bump := consumes_bumps 0

/-- The first rule reads a token. -/
theorem Consumes.seq_left (hp : Consumes p) (hq : Lawful q) : Consumes (p ++ q) := by
  intro ts f rest hne h
  obtain ⟨f₁, mid, f₂, h₁, h₂, rfl⟩ := seq_eq_ok h
  exact Nat.lt_of_le_of_lt (hq.length_le h₂) (hp hne h₁)

/-- The second rule reads a token, if one is left for it. -/
theorem Consumes.seq_right (hp : Lawful p) (hq : Lawful q) (h : Consumes q) : Consumes (p ++ q) := by
  intro ts f rest hne hok
  obtain ⟨f₁, mid, f₂, h₁, h₂, rfl⟩ := seq_eq_ok hok
  by_cases hmid : mid = []
  · -- the first rule has read everything, and there was something
    have hle := hq.length_le h₂
    rw [hmid, length_nil] at hle
    exact Nat.lt_of_le_of_lt hle (length_pos_iff.mpr hne)
  · exact Nat.lt_of_lt_of_le (h hmid h₂) (hp.length_le h₁)

theorem Consumes.either (hp : Consumes p) (hq : Consumes q) (ask : Lookahead) :
    Consumes (either ask p q) := by
  intro ts f rest hne h
  unfold Rule.either at h
  split at h
  · exact hp hne h
  · exact hq hne h

theorem Consumes.require (hp : Consumes p) (ask : Lookahead) (what : String) :
    Consumes (require ask what p) :=
  hp.either (consumes_fail what) ask

theorem Consumes.node (hp : Consumes p) (kind : NodeKind) : Consumes (node kind p) := by
  intro ts f rest hne h
  obtain ⟨cs, hcs, rfl⟩ := node_eq_ok h
  exact hp hne hcs

theorem Consumes.closing {first : NodeKind} {ask : List Token → NodeKind × Rule} (hp : Consumes p)
    (hq : ∀ ts, Lawful (ask ts).2) : Consumes (closing first p ask) := by
  intro ts f rest hne h
  obtain ⟨f₁, mid, f₂, h₁, h₂, rfl⟩ := closing_eq_ok h
  exact Nat.lt_of_le_of_lt ((hq mid).length_le h₂) (hp hne h₁)

/-- By `wrappings_induction`. -/
theorem length_le_of_wrappings {ask : Form} (hask : LawfulForms Token.UnseenIn ask)
    {f f' : List Tree} (h : wrappings ask f ts = .ok (f', rest)) : rest.length ≤ ts.length := by
  refine wrappings_induction (motive := fun _ ts _ rest => rest.length ≤ ts.length) ?_ ?_ ?_ h
  · intro f ts _
    exact Nat.le_refl _
  · intro f ts kind p g rest ha hp _
    exact (hask.lawful ha).length_le hp
  · intro f ts kind p g mid f' rest ha hp _ _ ih
    exact Nat.le_trans ih ((hask.lawful ha).length_le hp)

theorem Consumes.wrapping {ask : Form} (hp : Consumes p)
    (hask : LawfulForms Token.UnseenIn ask) : Consumes (wrapping p ask) := by
  intro ts f rest hne h
  obtain ⟨f₁, mid, h₁, h₂⟩ := wrapping_eq_ok h
  exact Nat.lt_of_le_of_lt (length_le_of_wrappings hask h₂) (hp hne h₁)

theorem consumes_expect (text : String) : Consumes (expect text) := consumes_bump.require _ _

theorem consumes_expectWord (what : String) : Consumes (expectWord what) := consumes_bump.require _ _

theorem consumes_group : Consumes group := by
  intro ts f rest _ h
  obtain ⟨run, hrun, rfl⟩ := group_eq_ok h
  exact length_lt_of_takeGroup hrun

/-! ## Types -/

section

variable {inner : Rule} (hinner : Lawful inner)
include hinner

theorem consumes_genericArgumentClause : Consumes (genericArgumentClause inner) :=
  ((consumes_bump.seq_left (((hinner.seq (lawful_separator ">" _)).node _).entries ">" _)).seq_left
    lawful_bump).node _

/-- It begins with `(`. -/
theorem consumes_parenType : Consumes (parenType inner) := by
  refine Consumes.closing (Consumes.seq_left (Consumes.seq_left consumes_bump ?_) lawful_bump) ?_
  · exact ((lawful_tupleElement hinner _).entries ")" _).node _
  · intro ts
    split
    · exact ((lawful_effectSpecifiers.optional natural_seesEffect).seq
        lawful_bump).seq hinner
    · exact lawful_nothing

theorem consumes_collectionType : Consumes (collectionType inner) := by
  refine Consumes.closing (consumes_bump.seq_left hinner) ?_
  intro ts
  split
  · exact (lawful_bump.seq hinner).seq (lawful_expect "]")
  · exact lawful_expect "]"

theorem consumes_identifierType : Consumes (identifierType inner) :=
  (consumes_bump.seq_left
    ((lawful_genericArgumentClause hinner).optional (natural_sees "<"))).node _

theorem consumes_primaryType : Consumes (primaryType inner) :=
  (consumes_parenType hinner).either
    ((consumes_collectionType hinner).either ((consumes_identifierType hinner).require _ _) _) _

theorem consumes_postfixType : Consumes (postfixType inner) :=
  (consumes_primaryType hinner).wrapping (lawfulForms_postfixForm hinner)

/-- Each form reads a token or goes on with one that does. -/
theorem consumes_simpleType : Consumes (simpleType inner) := by
  have hpostfix := consumes_postfixType hinner
  have hlawful := lawful_postfixType hinner
  refine Consumes.either ?_ (Consumes.either ?_ (Consumes.either ?_ hpostfix _) _) _
  · exact (Consumes.seq_right ((lawful_bump.many natural_seesTypeSpecifier).seq
      (lawful_attributeList.optional (natural_seesKind .atSign))) hlawful hpostfix).node _
  · exact (consumes_bump.seq_left hlawful).node _
  · exact (consumes_bump.seq_left hlawful).node _

theorem consumes_typeBody : Consumes (typeBody inner) :=
  (consumes_simpleType hinner).wrapping (lawfulForms_compositionForm hinner)

end

/-- **Types make progress** at every nesting budget. -/
theorem consumes_type (n : Nat) : Consumes (type n) := by
  cases n with
  | zero => exact consumes_tooDeep
  | succ n => exact consumes_typeBody (lawful_type n)

/-! ## Items -/

theorem consumes_introducer : Consumes introducer :=
  Consumes.seq_right ((lawful_attributeList.optional (natural_seesKind .atSign)).seq
    (lawful_modifierList.optional natural_isModifier)) lawful_bump consumes_bump

theorem consumes_ifConfigClause {item : Rule} (hitem : Lawful item) : Consumes (ifConfigClause item) := by
  refine (Consumes.seq_left
    (Consumes.either consumes_bump (consumes_bump.seq_left lawful_ifConfigCondition) _) ?_).node _
  exact (hitem.require (natural_seesEnd.or (natural_sees "\x7d")).not _).many
    natural_seesClauseEnd.not

theorem consumes_ifConfig {item : Rule} (hitem : Lawful item) : Consumes (ifConfig item) :=
  (((consumes_ifConfigClause hitem).seq_left
    ((lawful_ifConfigClause hitem).many
      (natural_seesClauseEnd.and (natural_sees "#endif").not))).seq_left
    lawful_bump).node _

/-- A statement reads its first token, unless that is a semicolon. -/
theorem length_lt_of_statement (hne : ts ≠ [])
    (hsemi : sees ";" ts = false) (h : statement ts = .ok (f, rest)) : rest.length < ts.length := by
  unfold statement require either at h
  split at h
  · next hask =>
    rw [Bool.not_eq_true', Bool.or_eq_false_iff] at hask
    obtain ⟨cs, hcs, rfl⟩ := node_eq_ok h
    cases ts with
    | nil => exact absurd rfl hne
    | cons t ts =>
      obtain ⟨-, rfl⟩ := split_eq_ok hcs
      have hends : runEnds false false (t :: ts) = false := by
        have hbrace : (t.text == "\x7d") = false := hask.1
        have hsemi' : (t.text == ";") = false := hsemi
        simp only [runEnds, hask.2, hbrace, hsemi', Bool.false_and, Bool.and_false, Bool.or_false]
      have hle : (takeRun false true (depthAfter 0 t) ts).2.length ≤ ts.length := by
        have happend := congrArg List.length (takeRun_append false true (depthAfter 0 t) ts)
        rw [length_append] at happend
        exact happend ▸ Nat.le_add_left _ _
      rw [takeRun, hends, Bool.and_false, if_neg Bool.false_ne_true]
      exact Nat.lt_succ_of_le hle
  · cases h

/-- By cases on how an item begins. -/
theorem consumes_itemBody {type item : Rule} (htype : Lawful type) (hitem : Lawful item) :
    Consumes (itemBody type item) := by
  intro ts f rest hne h
  unfold itemBody either at h
  split at h
  · exact consumes_bump hne h
  · next hsemi =>
    split at h
    · exact consumes_ifConfig hitem hne h
    · simp only at h
      split at h
      · next start _ =>
        exact (consumes_introducer.seq_left (lawful_declarationRest htype hitem _)).node _ hne h
      · exact length_lt_of_statement hne (Bool.not_eq_true _ ▸ hsemi) h

/-- **Items make progress** at every nesting budget. -/
theorem consumes_item (n : Nat) : Consumes (item n) := by
  cases n with
  | zero => exact consumes_tooDeep
  | succ n => exact consumes_itemBody (lawful_type n) (lawful_item n)

/-! ## Where repetitions end -/

/-- The rule takes at least one token where it is asked for. -/
def Shortens (ask : Lookahead) (p : Rule) : Prop :=
  ∀ ⦃ts f rest⦄, ask ts = true → p ts = .ok (f, rest) → rest.length < ts.length

/-- A repetition of a rule that makes progress ends only where its question says so. -/
theorem not_ask_of_many {ask : Lookahead} (hp : Shortens ask p)
    (h : many ask p ts = .ok (f, rest)) : ask rest = false := by
  refine many_induction (motive := fun _ _ rest => ask rest = false) ?_ ?_ ?_ h
  · intro ts hask
    exact hask
  · intro ts f rest hask hok hnot
    exact absurd (hp hask hok) hnot
  · intro ts f mid f' rest _ _ _ _ ih
    exact ih

/-- Entries end at their closing token. -/
theorem sees_of_entries {entry : Rule} (hentry : Consumes entry) {closer what : String}
    (h : entries closer what entry ts = .ok (f, rest)) : sees closer rest = true := by
  have hask := not_ask_of_many (fun ts f rest _ hok => ?_) h
  · exact Bool.not_eq_false' .. ▸ hask
  · unfold require either at hok
    split at hok
    · next hend =>
      refine hentry ?_ hok
      rintro rfl
      cases hend
    · cases hok

theorem length_lt_of_item {n : Nat} (hmore : (!seesEnd ts) = true)
    (h : item n ts = .ok (f, rest)) : rest.length < ts.length := by
  refine consumes_item n ?_ h
  rintro rfl
  cases hmore

/-- Items are read to the end of the file. -/
theorem rest_of_items {n : Nat} (h : many (fun ts => !seesEnd ts) (item n) ts = .ok (f, rest)) :
    rest = [] := by
  have hask := not_ask_of_many (fun _ _ _ hmore hok => length_lt_of_item hmore hok) h
  exact isEmpty_iff.mp (Bool.not_eq_false' .. ▸ hask)

theorem rest_of_sourceItems (h : sourceItems ts = .ok (f, rest)) : rest = [] :=
  rest_of_items h

/-- A rule that the end has to follow has read all of its input. -/
theorem seq_end_eq_ok {what : String}
    (h : (p ++ require seesEnd what nothing : Rule) ts = .ok (f, rest)) : p ts = .ok (f, []) ∧ rest = [] := by
  obtain ⟨f₁, mid, f₂, h₁, h₂, rfl⟩ := seq_eq_ok h
  unfold require either at h₂
  split at h₂
  · next hend =>
    obtain ⟨rfl, rfl⟩ := nothing_eq_ok h₂
    cases isEmpty_iff.mp hend
    exact ⟨by rw [h₁, append_nil], rfl⟩
  · cases h₂

/-- A sole type is read to its end. -/
theorem rest_of_soleType (h : soleType ts = .ok (f, rest)) : rest = [] :=
  (seq_end_eq_ok h).2

end Rule

/-! ## Parsed texts -/

variable {source : String} {tree : Tree}

/-- A parsed tree is the root around what its rule reads from the tokens of the text. -/
theorem parseWith_eq_ok {root : NodeKind} {rule : Rule}
    (h : parseWith root rule source = .ok tree) :
    ∃ tokens trees rest, tokenize source = .ok tokens ∧ rule tokens = .ok (trees, rest) ∧
      tree = .node root trees := by
  unfold parseWith at h
  split at h
  · cases h
  · next tokens htokens =>
    split at h
    · cases h
    · next trees rest hrule =>
      cases h
      exact ⟨tokens, trees, rest, htokens, hrule, rfl⟩

/-- A rule that keeps its tokens and reads all of them gives a tree with exactly the tokens of the
text. -/
theorem tokens_of_parseWith {root : NodeKind} {rule : Rule} (hlaw : rule.Lawful)
    (hrest : ∀ {ts trees rest}, rule ts = .ok (trees, rest) → rest = [])
    (h : parseWith root rule source = .ok tree) :
    tokenize source = .ok tree.tokens ∧ ∃ trees, tree = .node root trees := by
  obtain ⟨tokens, trees, rest, htokens, hrule, rfl⟩ := parseWith_eq_ok h
  have hkeeps := hlaw.keeps hrule
  rw [hrest hrule, append_nil] at hkeeps
  exact ⟨by rw [htokens, Tree.tokens_node, hkeeps], trees, rfl⟩

/-- **A parsed tree holds the tokens of the text**, in order and each once. -/
theorem tokenize_of_parse (h : parseSource source = .ok tree ∨ parseType source = .ok tree) :
    tokenize source = .ok tree.tokens := by
  rcases h with h | h
  · exact (tokens_of_parseWith Rule.lawful_sourceItems Rule.rest_of_sourceItems h).1
  · exact (tokens_of_parseWith Rule.lawful_soleType Rule.rest_of_soleType h).1

end SwiftOutline
