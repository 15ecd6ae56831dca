import SwiftOutline.Proofs.Grammar.Excerpt

/-!
# `SchemaCounts` — how many children of a sort a node has

A layout says how many trees of a sort there are wherever it says the same along all ways to read it.
Whoever looks for the type, the name or the closing parenthesis of a node finds it, and finds only one,
if the layout of the node counts one; that is a computation on the layout, done once for all trees.
-/

namespace SwiftOutline

open SwiftOutline.Tree List

/-! ## Counting -/

/-- What counts: how many of the tokens of a class, if it is the same for all of them, and which kinds of
node. -/
structure Tally where
  onToken : TokenClass → Option Nat
  onNode : NodeKind → Bool

/-- How many of the trees of a layout count, if it is the same number for all of them. -/
def Layout.count (m : Tally) : Layout → Option Nat
  | empty => some 0
  | token c => m.onToken c
  | node kinds =>
    if kinds.all m.onNode then some 1 else if kinds.all fun k => !m.onNode k then some 0 else none
  | filled k _ => some (if m.onNode k then 1 else 0)
  | group | run _ => if m.onToken .any = some 0 then some 0 else none
  | seq a b => (a.count m).bind fun x => (b.count m).map (x + ·)
  | alt a b => if a.count m = b.count m then a.count m else none
  | star a => if a.count m = some 0 then some 0 else none

namespace Tally

/-- The tally counts the trees that the question is about. -/
structure Counts (m : Tally) (ask : Tree → Bool) : Prop where
  token : ∀ ⦃c t n⦄, t.Lexical → c.holds t = true → m.onToken c = some n →
    (if ask (.token t) then 1 else 0) = n
  any : ∀ t, m.onToken .any = some 0 → ask (.token t) = false
  node : ∀ k cs, ask (.node k cs) = m.onNode k

variable {m : Tally} {ask : Tree → Bool}

/-- **A layout counts right.** -/
theorem Counts.countP_eq (hm : m.Counts ask) {all : List Token} {s : Layout} {f : List Tree} {n : Nat}
    (hmatch : s.Matches all f) (hcount : s.count m = some n) : f.countP ask = n := by
  have hrun {run : List Token} (hnone : m.onToken .any = some 0) : (run.map Tree.token).countP ask = 0 := by
    rw [countP_eq_zero]
    intro u hu
    obtain ⟨t, -, rfl⟩ := mem_map.mp hu
    rw [hm.any t hnone]
    exact Bool.false_ne_true
  induction s generalizing f n with
  | empty =>
    cases hmatch
    cases hcount
    rfl
  | token c =>
    obtain ⟨t, rfl, hlex, hc⟩ := hmatch
    rw [countP_singleton]
    exact hm.token hlex hc hcount
  | node kinds =>
    obtain ⟨k, hk, cs, rfl⟩ := hmatch
    rw [countP_singleton, hm.node]
    rw [Layout.count] at hcount
    split at hcount
    · next hall =>
      cases hcount
      rw [if_pos (all_eq_true.mp hall k hk)]
    split at hcount
    · next hall =>
      cases hcount
      have hno := all_eq_true.mp hall k hk
      rw [Bool.not_eq_true'] at hno
      rw [hno, if_neg Bool.false_ne_true]
    · cases hcount
  | filled k s _ =>
    obtain ⟨cs, rfl, -⟩ := hmatch
    rw [countP_singleton, hm.node]
    exact Option.some.inj hcount
  | group =>
    obtain ⟨first, tail, rfl, -⟩ := hmatch
    rw [Layout.count] at hcount
    split at hcount
    · next hnone =>
      cases hcount
      exact hrun hnone
    · cases hcount
  | run comma =>
    obtain ⟨run, rest, rfl, -⟩ := hmatch
    rw [Layout.count] at hcount
    split at hcount
    · next hnone =>
      cases hcount
      exact hrun hnone
    · cases hcount
  | seq a b iha ihb =>
    obtain ⟨g, h, rfl, hg, hh⟩ := hmatch
    obtain ⟨x, ha, hb⟩ := Option.bind_eq_some_iff.mp hcount
    obtain ⟨y, hy, rfl⟩ := Option.map_eq_some_iff.mp hb
    rw [countP_append, iha hg ha, ihb hh hy]
  | alt a b iha ihb =>
    rw [Layout.count] at hcount
    split at hcount
    · next hsame =>
      rcases hmatch with hf | hf
      · exact iha hf hcount
      · exact ihb hf (hsame ▸ hcount)
    · cases hcount
  | star a iha =>
    obtain ⟨gs, rfl, hgs⟩ := hmatch
    rw [Layout.count] at hcount
    split at hcount
    · next hnone =>
      cases hcount
      rw [countP_eq_zero]
      intro u hu
      obtain ⟨g, hg, hu⟩ := mem_flatten.mp hu
      exact countP_eq_zero.mp (iha (hgs g hg) hnone) u hu
    · cases hcount

/-- Nodes of some kinds. -/
def ofKinds (p : NodeKind → Bool) : Tally := ⟨fun _ => some 0, p⟩

theorem counts_ofKinds (p : NodeKind → Bool) : (ofKinds p).Counts fun t => t.kind?.any p where
  token _ _ _ _ _ hn := Option.some.inj hn
  any _ _ := rfl
  node _ _ := rfl

/-- Tokens of one text. -/
def ofText (text : String) : Tally where
  onToken
    | .text texts => if texts = [text] then some 1 else if texts.contains text then none else some 0
    | .kind k =>
      if k = .arrow ∧ text = "->" then some 1 else if lexicalKind? text = some k then none else some 0
    | _ => none
  onNode _ := false

theorem counts_ofText (text : String) : (ofText text).Counts fun t => t.token?.any (·.text == text) where
  token c t n hlex hc hn := by
    have hask : (Tree.token t).token?.any (·.text == text) = (t.text == text) := rfl
    rw [hask]
    cases c with
    | text texts =>
      have hmem : t.text ∈ texts := by simpa [TokenClass.holds] using hc
      dsimp only [ofText] at hn
      split at hn
      · next htexts =>
        cases hn
        rw [htexts, mem_singleton] at hmem
        rw [if_pos (beq_iff_eq.mpr hmem)]
      split at hn
      · cases hn
      · next hnot =>
        cases hn
        refine if_neg fun heq => hnot ?_
        rw [beq_iff_eq] at heq
        exact elem_eq_true_of_mem (heq ▸ hmem)
    | kind k =>
      have hkind : t.kind = k := by simpa [TokenClass.holds] using hc
      dsimp only [ofText] at hn
      split at hn
      · next harrow =>
        cases hn
        rw [hlex.text_of_kind.1 (hkind.trans harrow.1), harrow.2]
        rfl
      split at hn
      · cases hn
      · next hother =>
        cases hn
        refine if_neg fun heq => hother ?_
        rw [beq_iff_eq] at heq
        rw [← heq, hlex.lexicalKind?_eq, hkind]
    | word => cases hn
    | operator => cases hn
    | any => cases hn
  any _ h := by cases h
  node _ _ := rfl

end Tally

/-! ## Trees that hold a token -/

/-- Trees of the layout hold a token, if the nodes of the kinds given do. -/
def Layout.solid (kinds : NodeKind → Bool) : Layout → Bool
  | empty => false
  | token _ => true
  | node ks => ks.all kinds
  | filled k _ => kinds k
  | group => true
  | run _ => false
  | seq a b => a.solid kinds || b.solid kinds
  | alt a b => a.solid kinds && b.solid kinds
  | star _ => false

theorem Layout.forestTokens_ne_nil {kinds : NodeKind → Bool} {all : List Token} {s : Layout} {f : List Tree}
    (hmatch : s.Matches all f) (hsolid : s.solid kinds = true)
    (hnodes : ∀ k cs, .node k cs ∈ f → kinds k = true → forestTokens cs ≠ []) : forestTokens f ≠ [] := by
  induction s generalizing f with
  | empty | run _ | star _ _ => cases hsolid
  | token c =>
    obtain ⟨t, rfl, -⟩ := hmatch
    rw [forestTokens_singleton, tokens_token]
    exact cons_ne_nil _ _
  | node ks =>
    obtain ⟨k, hk, cs, rfl⟩ := hmatch
    rw [forestTokens_singleton, tokens_node]
    exact hnodes k cs (mem_singleton_self _) (all_eq_true.mp hsolid k hk)
  | filled k s _ =>
    obtain ⟨cs, rfl, -⟩ := hmatch
    rw [forestTokens_singleton, tokens_node]
    exact hnodes k cs (mem_singleton_self _) hsolid
  | group =>
    obtain ⟨first, tail, rfl, -⟩ := hmatch
    rw [forestTokens_map_token]
    exact cons_ne_nil _ _
  | seq a b iha ihb =>
    obtain ⟨g, h, rfl, hg, hh⟩ := hmatch
    rw [forestTokens_append]
    rw [Layout.solid, Bool.or_eq_true] at hsolid
    rcases hsolid with hsolid | hsolid
    · exact append_ne_nil_of_left_ne_nil
        (iha hg hsolid fun k cs hmem => hnodes k cs (mem_append_left _ hmem)) _
    · exact append_ne_nil_of_right_ne_nil _
        (ihb hh hsolid fun k cs hmem => hnodes k cs (mem_append_right _ hmem))
  | alt a b iha ihb =>
    rw [Layout.solid, Bool.and_eq_true] at hsolid
    rcases hmatch with hf | hf
    · exact iha hf hsolid.1 hnodes
    · exact ihb hf hsolid.2 hnodes

/-- The kinds of node that hold a token. -/
def NodeKind.isSolid (kind : NodeKind) : Bool :=
  kind.isType || [.name, .pattern, .importPath, .ifConfigCondition, .opaqueBlock].contains kind

theorem solid_childLayout {kind : NodeKind} (h : kind.isSolid = true) :
    (childLayout kind).solid NodeKind.isSolid = true := by
  revert h
  cases kind <;> decide

/-- **Types, names, patterns, paths and conditions hold a token.** -/
theorem tokens_ne_nil {all : List Token} {tree : Tree} (hlaid : tree.Every (Rule.LaidOut all))
    (hsolid : tree.kind?.any NodeKind.isSolid = true) : tree.tokens ≠ [] := by
  induction hlaid with
  | token t => cases hsolid
  | @node kind cs here below ih =>
    rw [tokens_node]
    refine Layout.forestTokens_ne_nil here.1 (solid_childLayout hsolid) fun k ds hmem hk => ?_
    have hbelow := ih _ hmem hk
    rwa [tokens_node] at hbelow

/-! ## The schema -/

/-- The kinds of node that are put around a node already read. -/
def NodeKind.isWrapper : NodeKind → Bool
  | optionalType | implicitlyUnwrappedOptionalType | memberType | metatypeType | compositionType => true
  | _ => false

/-- The kinds of node with exactly one type among their children. -/
def NodeKind.hasOneType : NodeKind → Bool
  | optionalType | implicitlyUnwrappedOptionalType | attributedType | someOrAnyType | suppressedType
  | metatypeType | functionType | tupleTypeElement | functionParameter | enumCaseParameter | genericArgument
  | inheritedType | typeClause | typeInitializer | returnClause => true
  | _ => false

/-- What those who read a node rely on. -/
structure Tree.FitsSchema (kind : NodeKind) (cs : List Tree) : Prop where
  /-- A node put around another has that one, a type, as its first child. -/
  wraps : kind.isWrapper = true → ∃ u rest, cs = u :: rest ∧ u.isType = true
  /-- One child is a type. -/
  oneType : kind.hasOneType = true → ∃ u, cs.filter isType = [u]
  /-- A function type has one list of elements. -/
  oneList : kind = .functionType → ∃ l, cs.filter (isKind .tupleTypeElementList) = [l]
  /-- Of the tokens of a function type one is the closing parenthesis and one the arrow. -/
  oneToken : kind = .functionType → ∀ text ∈ [")", "->"],
    ∃ t, (node kind cs).childTokens.filter (·.text == text) = [t]

namespace Tree

theorem exists_filter_eq {ask : Tree → Bool} {cs : List Tree} (h : cs.countP ask = 1) :
    ∃ u, cs.filter ask = [u] := by
  rw [countP_eq_length_filter] at h
  exact length_eq_one_iff.mp h

theorem isKind_eq_any (k : NodeKind) : isKind k = fun t => t.kind?.any (· == k) := by
  funext t
  cases t with
  | token t => rfl
  | node kind cs => rfl

theorem countP_childTokens (kind : NodeKind) (cs : List Tree) (ask : Token → Bool) :
    (node kind cs).childTokens.countP ask = cs.countP fun t => t.token?.any ask := by
  rw [childTokens, countP_filterMap]
  congr 1
  funext t
  cases t with
  | token t => rfl
  | node kind cs => rfl

section

variable {all : List Token} {kind : NodeKind} {cs : List Tree} (h : Rule.LaidOut all kind cs)
include h

/-- Looking for a child of a sort that the layout counts once, one finds the only one. -/
theorem exists_only_of_count {p : NodeKind → Bool} (hcount : (childLayout kind).count (.ofKinds p) = some 1) :
    ∃ u, cs.filter (fun t => t.kind?.any p) = [u] :=
  exists_filter_eq ((Tally.counts_ofKinds p).countP_eq h.1 hcount)

/-- No child node is of a sort that the layout does not have. -/
theorem kind_of_count {p : NodeKind → Bool} (hcount : (childLayout kind).count (.ofKinds p) = some 0)
    {u : Tree} (hu : u ∈ cs) : u.kind?.any p = false := by
  have hnone := countP_eq_zero.mp ((Tally.counts_ofKinds p).countP_eq h.1 hcount) u hu
  rwa [Bool.not_eq_true] at hnone

theorem fitsSchema_of_laidOut : FitsSchema kind cs where
  wraps hkind := by
    have hlayout : ∃ s, childLayout kind = Layout.aType ++ s := by
      cases kind <;> first | exact ⟨_, rfl⟩ | cases hkind
    obtain ⟨s, hs⟩ := hlayout
    obtain ⟨f, g, rfl, ⟨k, hk, ds, rfl⟩, -⟩ := hs ▸ h.1
    have htypes : ∀ k ∈ typeKinds, k.isType = true := by decide
    exact ⟨.node k ds, g, rfl, htypes k hk⟩
  oneType hkind := by
    refine exists_only_of_count h ?_
    revert hkind
    cases kind <;> decide
  oneList hkind := by
    cases hkind
    rw [isKind_eq_any]
    exact exists_only_of_count h (by decide)
  oneToken hkind text htext := by
    cases hkind
    have hcount : (childLayout .functionType).count (.ofText text) = some 1 := by
      rcases mem_cons.mp htext with rfl | htext
      · decide
      · cases mem_singleton.mp htext
        decide
    have htokens := (Tally.counts_ofText text).countP_eq h.1 hcount
    rw [← countP_childTokens .functionType, countP_eq_length_filter] at htokens
    exact length_eq_one_iff.mp htokens

end

/-! ## Parts of accepted trees -/

/-- The tree is a part of an accepted tree. -/
structure Accepted (t : Tree) : Prop where
  laidOut : ∃ all, t.Every (Rule.LaidOut all)
  lexical : ∀ u ∈ t.tokens, u.Lexical

namespace Accepted

variable {t u : Tree} {kind : NodeKind}

theorem contains (h : t.Accepted) (hu : t.Contains u) : u.Accepted where
  laidOut := have ⟨all, hlaid⟩ := h.laidOut; ⟨all, hlaid.contains hu⟩
  lexical v hv := h.lexical v (hu.tokens_isInfix.subset hv)

theorem child (h : t.Accepted) (hu : u ∈ t.children) : u.Accepted := h.contains (.child .self hu)

/-- **Parts with a token have a text.** -/
theorem text_ne_empty (h : t.Accepted) (hsolid : t.kind?.any NodeKind.isSolid = true) : t.text ≠ "" := by
  obtain ⟨all, hlaid⟩ := h.laidOut
  obtain ⟨first, rest, hfirst⟩ := exists_cons_of_ne_nil (tokens_ne_nil hlaid hsolid)
  intro hempty
  have htext : (Token.joined (first :: rest)).toList = [] := by
    rw [← hfirst, show Token.joined t.tokens = "" from hempty]
    rfl
  rw [Token.toList_joined, append_eq_nil_iff] at htext
  have hlex := h.lexical first (by rw [hfirst]; exact mem_cons_self)
  exact hlex.text_ne_empty (String.toList_injective htext.1)

theorem here (h : t.Accepted) (hkind : t.kind? = some kind) :
    ∃ all cs, t = .node kind cs ∧ Rule.LaidOut all kind cs := by
  obtain ⟨all, hlaid⟩ := h.laidOut
  cases t with
  | token t => cases hkind
  | node kind' cs =>
    cases hkind
    exact ⟨all, cs, rfl, hlaid.here⟩

/-- The child of a sort that a node's layout counts once. -/
theorem exists_of_count {p : NodeKind → Bool} (h : t.Accepted) (hkind : t.kind? = some kind)
    (hcount : (childLayout kind).count (.ofKinds p) = some 1) :
    ∃ u, t.children.find? (fun t => t.kind?.any p) = some u ∧ u.kind?.any p = true ∧ u.Accepted := by
  obtain ⟨all, cs, rfl, hlaid⟩ := h.here hkind
  obtain ⟨u, hu⟩ := exists_only_of_count hlaid hcount
  have hmem : u ∈ cs.filter fun t => t.kind?.any p := by rw [hu]; exact mem_singleton_self u
  refine ⟨u, ?_, (mem_filter.mp hmem).2, h.child (mem_filter.mp hmem).1⟩
  rw [← List.head?_filter]
  exact congrArg List.head? hu

theorem exists_child {k : NodeKind} (h : t.Accepted) (hkind : t.kind? = some kind)
    (hcount : (childLayout kind).count (.ofKinds (· == k)) = some 1) :
    ∃ u, t.child? k = some u ∧ u.kind? = some k ∧ u.Accepted := by
  obtain ⟨u, hu, hk, haccepted⟩ := h.exists_of_count hkind hcount
  rw [← congrFun (isKind_eq_any k) u] at hk
  exact ⟨u, by rw [child?, isKind_eq_any, hu], beq_iff_eq.mp hk, haccepted⟩

theorem exists_childType (h : t.Accepted) (hkind : t.kind? = some kind)
    (hcount : (childLayout kind).count (.ofKinds NodeKind.isType) = some 1) :
    ∃ u, t.childType? = some u ∧ u.isType = true ∧ u.Accepted :=
  h.exists_of_count hkind hcount

/-- The nodes in a clause are all of one kind, if its layout has no others. -/
theorem isKind_of_mem {k : NodeKind} (h : t.Accepted) (hkind : t.kind? = some kind)
    (hcount : (childLayout kind).count (.ofKinds (· != k)) = some 0) (hu : u ∈ t.childNodes) :
    u.kind? = some k := by
  obtain ⟨all, cs, rfl, hlaid⟩ := h.here hkind
  obtain ⟨hmem, hnode⟩ := mem_filter.mp hu
  have hother := kind_of_count hlaid hcount hmem
  cases u with
  | token t => cases hnode
  | node k' ds =>
    have hk : (k' != k) = false := hother
    rw [bne_eq_false_iff_eq] at hk
    rw [kind?, hk]

end Accepted

theorem accepted_of_parse {source : String} {tree : Tree}
    (h : parseSource source = .ok tree ∨ parseType source = .ok tree) : tree.Accepted where
  laidOut := ⟨_, laidOut_of_parse h⟩
  lexical := lexical_of_tokensFrom (tokenize_of_parse h)

end Tree

end SwiftOutline
