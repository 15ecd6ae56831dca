import SwiftOutline.Proofs.Grammar.Excerpt

/-!
# `Brackets` — the brackets of an accepted file

Structured parts of a file open and close their brackets in pairs. Parts that are kept as flat runs of
tokens do not have to: a condition goes on to the end of its line whatever stands there, and a statement
or an expression may begin with a closing bracket, since it has to take some token. What a run does keep
is that, behind a first closing bracket, it closes only what it has opened, and that it ends only where
all is closed or where the file ends.
-/

namespace SwiftOutline

open SwiftOutline.Tree List

/-! ## Bracket depth -/

/-- The bracket depth behind the tokens if it is `depth` in front of them; `none` if it drops below zero
on the way. -/
def depthFrom (depth : Nat) : List Token → Option Nat
  | [] => some depth
  | t :: ts =>
    if isOpener t then depthFrom (depth + 1) ts
    else if isCloser t then if depth = 0 then none else depthFrom (depth - 1) ts
    else depthFrom depth ts

/-- The bracket depth never drops below zero and is zero at the end. -/
def Balanced (ts : List Token) : Prop := depthFrom 0 ts = some 0

instance (ts : List Token) : Decidable (Balanced ts) := inferInstanceAs (Decidable (_ = _))

/-- The tokens without a closing bracket in front. -/
def behindCloser : List Token → List Token
  | [] => []
  | t :: ts => if isCloser t then ts else t :: ts

variable {t : Token} {ts : List Token}

/-- A token that does not close what was not opened takes the depth where it belongs. -/
theorem depthFrom_cons {depth : Nat} (h : isCloser t = true → depth ≠ 0) (ts : List Token) :
    depthFrom depth (t :: ts) = depthFrom (depthAfter depth t) ts := by
  rw [depthFrom, depthAfter]
  split
  · rfl
  · split
    · next hclose => rw [if_neg (h hclose)]
    · rfl

theorem depthFrom_append (ts us : List Token) (depth : Nat) :
    depthFrom depth (ts ++ us) = (depthFrom depth ts).bind (depthFrom · us) := by
  induction ts generalizing depth with
  | nil => rfl
  | cons t ts ih =>
    rw [cons_append, depthFrom, depthFrom]
    split
    · exact ih _
    · split
      · split
        · rfl
        · exact ih _
      · exact ih _

/-- Deeper down the depth goes the same way. -/
theorem depthFrom_add {depth after : Nat} (h : depthFrom depth ts = some after) (k : Nat) :
    depthFrom (depth + k) ts = some (after + k) := by
  induction ts generalizing depth with
  | nil =>
    cases h
    rfl
  | cons t ts ih =>
    rw [depthFrom] at h ⊢
    split at h
    · next hopen =>
      rw [if_pos hopen, Nat.add_right_comm]
      exact ih h
    · next hopen =>
      rw [if_neg hopen]
      split at h
      · next hclose =>
        rw [if_pos hclose]
        split at h
        · cases h
        · next hpos =>
          rw [if_neg (by omega), show depth + k - 1 = depth - 1 + k by omega]
          exact ih h
      · next hclose =>
        rw [if_neg hclose]
        exact ih h

theorem Balanced.depthFrom (h : Balanced ts) (depth : Nat) :
    depthFrom depth ts = some depth := by
  have hdeeper := depthFrom_add h depth
  rwa [Nat.zero_add] at hdeeper

theorem not_isOpener_of_isCloser (h : isCloser t = true) : isOpener t = false := by
  cases hopen : isOpener t with
  | false => rfl
  | true => exact absurd h (by rw [not_isCloser_of_isOpener hopen]; exact Bool.false_ne_true)

/-! ## Groups and runs -/

/-- A group closes all that is open. -/
theorem takeGroup_depth {depth : Nat} {p : List Token × List Token} (hpos : 0 < depth)
    (h : takeGroup depth ts = some p) : depthFrom depth p.1 = some 0 := by
  induction ts generalizing depth p with
  | nil => cases h
  | cons t ts ih =>
    rw [takeGroup] at h
    split at h
    · next hlast =>
      cases h
      rw [Bool.and_eq_true, beq_iff_eq] at hlast
      rw [depthFrom_cons fun _ => by omega, hlast.2]
      rfl
    · next hgoes =>
      obtain ⟨q, hq, rfl⟩ := Option.map_eq_some_iff.mp h
      -- only a closing bracket takes the depth down, and this one does not take it to zero
      have hdepth : 0 < depthAfter depth t := by
        rw [Bool.and_eq_true, beq_iff_eq] at hgoes
        unfold depthAfter at hgoes ⊢
        split
        · omega
        · next hopen =>
          rw [if_neg hopen] at hgoes
          split
          · next hclose =>
            rw [if_pos hclose] at hgoes
            exact Nat.pos_of_ne_zero fun hzero => hgoes ⟨hclose, hzero⟩
          · exact hpos
      rw [depthFrom_cons fun _ => by omega]
      exact ih hdepth hq

/-- Outside all brackets a run that has begun ends before a closing bracket. -/
theorem runEnds_of_isCloser (h : isCloser t = true) (comma : Bool) (ts : List Token) :
    runEnds comma true (t :: ts) = true := by
  rw [isCloser, Bool.and_eq_true] at h
  obtain ⟨hkind, htext⟩ := h
  simp only [contains_eq_mem, mem_cons, not_mem_nil, or_false, decide_eq_true_eq] at htext
  rcases htext with htext | htext | htext <;> simp [runEnds, hkind, htext]

/-- A run that has begun closes only what is open, and leaves nothing open if something is behind it. -/
theorem takeRun_depth_of_begun (comma : Bool) (depth : Nat) (ts : List Token) :
    ∃ after, depthFrom depth (takeRun comma true depth ts).1 = some after ∧
      ((takeRun comma true depth ts).2 ≠ [] → after = 0) := by
  induction ts generalizing depth with
  | nil => exact ⟨depth, rfl, fun h => absurd rfl h⟩
  | cons t ts ih =>
    rw [takeRun]
    split
    · next hends =>
      rw [Bool.and_eq_true, beq_iff_eq] at hends
      exact ⟨depth, rfl, fun _ => hends.1⟩
    · next hgoes =>
      obtain ⟨after, hdepth, hafter⟩ := ih (depthAfter depth t)
      refine ⟨after, ?_, hafter⟩
      have hcloses : isCloser t = true → depth ≠ 0 := by
        rintro hclose rfl
        exact hgoes (by rw [runEnds_of_isCloser hclose]; rfl)
      rw [depthFrom_cons hcloses]
      exact hdepth

/-- **A run closes only what it opens**, behind a first closing bracket, and leaves nothing open if
something is behind it. -/
theorem takeRun_depth (comma : Bool) (ts : List Token) :
    ∃ after, depthFrom 0 (behindCloser (takeRun comma false 0 ts).1) = some after ∧
      ((takeRun comma false 0 ts).2 ≠ [] → after = 0) := by
  cases ts with
  | nil => exact ⟨0, rfl, fun _ => rfl⟩
  | cons t ts =>
    rw [takeRun]
    split
    · exact ⟨0, rfl, fun _ => rfl⟩
    · obtain ⟨after, hdepth, hafter⟩ := takeRun_depth_of_begun comma (depthAfter 0 t) ts
      refine ⟨after, ?_, hafter⟩
      show depthFrom 0 (behindCloser (t :: (takeRun comma true (depthAfter 0 t) ts).1)) = some after
      rw [behindCloser]
      split
      · next hclose =>
        -- the depth does not drop below zero, so the bracket leaves it where it is
        have hzero : depthAfter 0 t = 0 := by rw [depthAfter, not_isOpener_of_isCloser hclose, hclose]; rfl
        rwa [hzero] at hdepth ⊢
      · next hclose =>
        rw [depthFrom_cons fun h => absurd h hclose]
        exact hdepth

/-! ## Layouts -/

/-- The depth behind any token of a class, if it is the same for all of them. -/
def TokenClass.depth (depth : Nat) : TokenClass → Option Nat
  | text texts =>
    if texts.all ["(", "[", "\x7b"].contains then some (depth + 1)
    else if texts.all [")", "]", "\x7d"].contains then if depth = 0 then none else some (depth - 1)
    else if texts.all fun s => !(["(", "[", "\x7b", ")", "]", "\x7d"].contains s) then some depth
    else none
  | word => some depth
  | kind k => if k = .punct then none else some depth
  | operator => some depth
  | any => none

theorem isOpener_eq_false {t : Token} (h : t.kind ≠ .punct ∨ ["(", "[", "\x7b"].contains t.text = false) :
    isOpener t = false := by
  rw [isOpener, Bool.and_eq_false_iff]
  exact h.imp beq_eq_false_iff_ne.mpr id

theorem isCloser_eq_false {t : Token} (h : t.kind ≠ .punct ∨ [")", "]", "\x7d"].contains t.text = false) :
    isCloser t = false := by
  rw [isCloser, Bool.and_eq_false_iff]
  exact h.imp beq_eq_false_iff_ne.mpr id

theorem depthFrom_of_not_bracket {t : Token} (hopen : isOpener t = false) (hclose : isCloser t = false)
    (depth : Nat) : depthFrom depth [t] = some depth := by
  rw [depthFrom, hopen, hclose]
  rfl

theorem TokenClass.depthFrom_eq {c : TokenClass} {t : Token} {depth after : Nat} (hlex : t.Lexical)
    (h : c.holds t = true) (hdepth : c.depth depth = some after) : depthFrom depth [t] = some after := by
  cases c with
  | text texts =>
    have hmem : t.text ∈ texts := by simpa [TokenClass.holds] using h
    rw [TokenClass.depth] at hdepth
    split at hdepth
    · next hall =>
      cases hdepth
      rw [depthFrom, hlex.isOpener (all_eq_true.mp hall _ hmem)]
      rfl
    split at hdepth
    · next hall =>
      have hclose := hlex.isCloser (all_eq_true.mp hall _ hmem)
      split at hdepth
      · cases hdepth
      · next hpos =>
        cases hdepth
        rw [depthFrom_cons fun _ => hpos, depthAfter, not_isOpener_of_isCloser hclose, hclose]
        rfl
    split at hdepth
    · next hall =>
      cases hdepth
      have hnone := all_eq_true.mp hall _ hmem
      simp only [Bool.not_eq_true', contains_eq_mem, mem_cons, not_mem_nil, or_false,
        decide_eq_false_iff_not, not_or] at hnone
      exact depthFrom_of_not_bracket (isOpener_eq_false (.inr (by simp [hnone])))
        (isCloser_eq_false (.inr (by simp [hnone]))) depth
    · cases hdepth
  | word =>
    cases hdepth
    have hkind : t.kind ≠ .punct := by
      intro hpunct
      rw [TokenClass.holds, Token.isWord, hpunct] at h
      exact absurd h (by decide)
    exact depthFrom_of_not_bracket (isOpener_eq_false (.inl hkind)) (isCloser_eq_false (.inl hkind)) depth
  | kind k =>
    have hkind : t.kind = k := by simpa [TokenClass.holds] using h
    rw [TokenClass.depth] at hdepth
    split at hdepth
    · cases hdepth
    · next hk =>
      cases hdepth
      exact depthFrom_of_not_bracket (isOpener_eq_false (.inl (hkind ▸ hk)))
        (isCloser_eq_false (.inl (hkind ▸ hk)))
        depth
  | operator =>
    cases hdepth
    have hnone : t.kind ≠ .punct ∨
        ["(", ")", "[", "]", "\x7b", "\x7d", ",", ":", ";"].contains t.text = false := by
      rw [TokenClass.holds, isOperatorToken] at h
      split at h
      · exact .inr (by rwa [Bool.not_eq_true'] at h)
      · next hkind => exact .inl (by rw [hkind]; decide)
      · next hkind => exact .inl (by rw [hkind]; decide)
      · cases h
    refine depthFrom_of_not_bracket (isOpener_eq_false (hnone.imp id fun h => ?_))
      (isCloser_eq_false (hnone.imp id fun h => ?_)) depth
    all_goals
      simp only [contains_eq_mem, mem_cons, not_mem_nil, or_false, decide_eq_false_iff_not,
        not_or] at h ⊢
      simp [h]
  | any => cases hdepth

namespace Layout

/-- The depth behind any trees of the layout, if it is the same for all of them and their nodes are
balanced. -/
def depth : Layout → Nat → Option Nat
  | empty, d => some d
  | token c, d => c.depth d
  | node _, d => some d
  | filled _ _, d => some d
  | group, d => some d
  | run _, _ => none
  | seq a b, d => (a.depth d).bind b.depth
  | alt a b, d => if a.depth d = b.depth d then a.depth d else none
  | star a, d => if a.depth d = some d then some d else none

end Layout

/-- The kinds of node whose tokens are a run of an expression or a statement. -/
def NodeKind.isRun : NodeKind → Bool
  | .statement | .expr => true
  | _ => false

/-- The other kinds of node whose tokens are not looked at one by one. -/
def NodeKind.isFlat : NodeKind → Bool
  | .genericWhereClause | .ifConfigCondition | .importPath => true
  | _ => false

/-- **Structured nodes open and close their brackets in pairs**, by their layout. -/
theorem depth_childLayout {kind : NodeKind} (hrun : kind.isRun = false) (hflat : kind.isFlat = false) :
    (childLayout kind).depth 0 = some 0 := by
  cases kind with
  | statement | expr => cases hrun
  | genericWhereClause | ifConfigCondition | importPath => cases hflat
  | _ => decide

/-! ## Whole trees -/

namespace Tree

mutual

/-- The tokens of a tree that stand outside all flat nodes. -/
def outside : Tree → List Token
  | token t => [t]
  | node kind cs => if kind.isRun || kind.isFlat then [] else forestOutside cs

/-- The tokens of a list of trees that stand outside all flat nodes. -/
def forestOutside : List Tree → List Token
  | [] => []
  | t :: ts => t.outside ++ forestOutside ts

end

theorem forestOutside_eq_flatMap (ts : List Tree) : forestOutside ts = ts.flatMap outside := by
  induction ts with
  | nil => rw [forestOutside, flatMap_nil]
  | cons t ts ih => rw [forestOutside, flatMap_cons, ih]

theorem outside_node (kind : NodeKind) (cs : List Tree) :
    (node kind cs).outside = if kind.isRun || kind.isFlat then [] else cs.flatMap outside := by
  rw [outside, forestOutside_eq_flatMap]

end Tree

namespace Brackets

/-- A view of trees as runs of tokens shows a token as it is, and a structured node as its children. -/
structure IsView (view : Tree → List Token) : Prop where
  token : ∀ t, view (.token t) = [t]
  node : ∀ kind cs, kind.isRun = false → kind.isFlat = false → view (.node kind cs) = cs.flatMap view

theorem isView_tokens : IsView tokens where
  token := tokens_token
  node kind cs _ _ := by rw [tokens_node, forestTokens_eq_flatMap]

theorem isView_outside : IsView outside where
  token t := by rw [outside]
  node kind cs hrun hflat := by
    rw [outside_node, hrun, hflat]
    rfl

/-- `ended` holds of runs behind which nothing of `whole` is left. -/
structure IsEnd (whole : List Token) (ended : List Token → Prop) : Prop where
  left : ∀ {ts us}, ended us → ended (ts ++ us)
  right : ∀ {ts us}, ended ts → (ts ++ us) <:+: whole → us = []

/-- The depth goes from one value to another, or the tokens are the last ones and it does not drop below
zero. -/
def Passes (ended : List Token → Prop) (depth after : Nat) (ts : List Token) : Prop :=
  depthFrom depth ts = some after ∨ ended ts ∧ (depthFrom depth ts).isSome = true

section

variable {whole : List Token} {ended : List Token → Prop}

theorem Passes.append (hended : IsEnd whole ended) {depth between after : Nat} {ts us : List Token}
    (hts : Passes ended depth between ts) (hus : Passes ended between after us)
    (hin : (ts ++ us) <:+: whole) : Passes ended depth after (ts ++ us) := by
  rcases hts with hts | ⟨hlast, hsome⟩
  · rcases hus with hus | ⟨hlast, hsome⟩
    · exact .inl (by rw [depthFrom_append, hts, Option.bind_some, hus])
    · exact .inr ⟨hended.left hlast, by rw [depthFrom_append, hts, Option.bind_some, hsome]⟩
  · cases hended.right hlast hin
    rw [append_nil]
    exact .inr ⟨hlast, hsome⟩

theorem Passes.deeper {ts : List Token} (h : Passes ended 0 0 ts) (depth : Nat) :
    Passes ended depth depth ts := by
  rcases h with h | ⟨hlast, hsome⟩
  · exact .inl (Balanced.depthFrom h depth)
  · obtain ⟨after, hafter⟩ := Option.isSome_iff_exists.mp hsome
    have hdeeper := depthFrom_add hafter depth
    rw [Nat.zero_add] at hdeeper
    exact .inr ⟨hlast, by rw [hdeeper]; rfl⟩

variable {view : Tree → List Token} (hview : IsView view) (hended : IsEnd whole ended)
include hview

theorem flatMap_map_token (run : List Token) : (run.map token).flatMap view = run := by
  induction run with
  | nil => rfl
  | cons t run ih => rw [List.map_cons, flatMap_cons, hview.token, ih, singleton_append]

include hended

/-- **The depth along trees of a layout** is the one found from the layout, if it is balanced along their
nodes. -/
theorem passes_of_matches {all : List Token} {s : Layout} {f : List Tree} {depth after : Nat}
    (hmatch : s.Matches all f) (hdepth : s.depth depth = some after)
    (hnodes : ∀ kind cs, .node kind cs ∈ f → Passes ended 0 0 (view (.node kind cs)))
    (hin : f.flatMap view <:+: whole) : Passes ended depth after (f.flatMap view) := by
  induction s generalizing f depth after with
  | empty =>
    cases hmatch
    cases hdepth
    exact .inl rfl
  | token c =>
    obtain ⟨t, rfl, hlex, hc⟩ := hmatch
    rw [flatMap_singleton, hview.token]
    exact .inl (TokenClass.depthFrom_eq hlex hc hdepth)
  | node kinds =>
    obtain ⟨k, -, cs, rfl⟩ := hmatch
    cases hdepth
    rw [flatMap_singleton]
    exact (hnodes k cs (mem_singleton_self _)).deeper _
  | filled k s _ =>
    obtain ⟨cs, rfl, -⟩ := hmatch
    cases hdepth
    rw [flatMap_singleton]
    exact (hnodes k cs (mem_singleton_self _)).deeper _
  | group =>
    obtain ⟨first, tail, rfl, hopen, htail⟩ := hmatch
    cases hdepth
    rw [flatMap_map_token hview]
    have hbalanced : Balanced (first :: tail) := by
      rw [Balanced, depthFrom, if_pos hopen]
      exact takeGroup_depth Nat.one_pos htail
    exact .inl (hbalanced.depthFrom depth)
  | run comma => cases hdepth
  | seq a b iha ihb =>
    obtain ⟨g, h, rfl, hg, hh⟩ := hmatch
    obtain ⟨between, ha, hb⟩ := Option.bind_eq_some_iff.mp hdepth
    rw [flatMap_append] at hin ⊢
    refine (iha hg ha (fun kind cs hmem => hnodes kind cs (mem_append_left _ hmem)) ?_).append hended
      (ihb hh hb (fun kind cs hmem => hnodes kind cs (mem_append_right _ hmem)) ?_) hin
    · exact (prefix_append _ _).isInfix.trans hin
    · exact (suffix_append _ _).isInfix.trans hin
  | alt a b iha ihb =>
    rw [Layout.depth] at hdepth
    split at hdepth
    · next hsame =>
      rcases hmatch with hf | hf
      · exact iha hf hdepth hnodes hin
      · exact ihb hf (hsame ▸ hdepth) hnodes hin
    · cases hdepth
  | star a iha =>
    obtain ⟨gs, rfl, hgs⟩ := hmatch
    rw [Layout.depth] at hdepth
    split at hdepth
    · next hsame =>
      cases hdepth
      induction gs with
      | nil => exact .inl rfl
      | cons g gs ih =>
        rw [flatten_cons, flatMap_append] at hin ⊢
        rw [flatten_cons] at hnodes
        refine (iha (hgs g mem_cons_self) hsame (fun kind cs hmem =>
          hnodes kind cs (mem_append_left _ hmem))
          ?_).append hended (ih (fun h hh => hgs h (mem_cons_of_mem g hh))
            (fun kind cs hmem => hnodes kind cs (mem_append_right _ hmem)) ?_) hin
        · exact (prefix_append _ _).isInfix.trans hin
        · exact (suffix_append _ _).isInfix.trans hin
    · cases hdepth

/-- **The depth along a tree**: it is balanced along every node, if it is along the flat ones. -/
theorem passes_of_every {all : List Token} {tree : Tree} (hlaid : tree.Every (Rule.LaidOut all))
    (hflat : tree.Every fun kind cs => (kind.isRun || kind.isFlat) = true →
      Passes ended 0 0 (view (.node kind cs)))
    (hnode : tree.isNode = true) (hin : view tree <:+: whole) : Passes ended 0 0 (view tree) := by
  induction hlaid with
  | token t => cases hnode
  | @node kind cs here below ih =>
    cases hrun : kind.isRun || kind.isFlat with
    | true => exact hflat.here hrun
    | false =>
      rw [Bool.or_eq_false_iff] at hrun
      rw [hview.node kind cs hrun.1 hrun.2] at hin ⊢
      refine passes_of_matches hview hended here.1 (depth_childLayout hrun.1 hrun.2) ?_ hin
      intro k ds hmem
      refine ih _ hmem (hflat.child hmem) rfl (List.IsInfix.trans ?_ hin)
      obtain ⟨before, behind, hcs⟩ := append_of_mem hmem
      rw [hcs, flatMap_append, flatMap_cons, ← append_assoc]
      exact (infix_append _ _ _)

end

/-- Nothing is the end. -/
theorem isEnd_none (whole : List Token) : IsEnd whole fun _ => False where
  left h := h
  right h _ := h.elim

/-- Some of the last tokens of `whole` are the last ones here. -/
def AtEnd (whole ts : List Token) : Prop := ∃ run, run ≠ [] ∧ run <:+ ts ∧ run <:+ whole

theorem isEnd_atEnd {whole : List Token} (hnodup : whole.Nodup) : IsEnd whole (AtEnd whole) where
  left := by
    rintro ts us ⟨run, hne, hrun, hlast⟩
    exact ⟨run, hne, hrun.trans (suffix_append _ _), hlast⟩
  right := by
    rintro _ us ⟨run, hne, ⟨before, rfl⟩, ⟨front, hlast⟩⟩ ⟨p, q, hwhole⟩
    -- the last token of the run is the last one of all, and stands there only once
    obtain ⟨run, t, rfl⟩ : ∃ run' t, run = run' ++ [t] := ⟨_, _, (dropLast_concat_getLast hne).symm⟩
    have hend : whole.getLast? = some t := by
      rw [← hlast, ← append_assoc, List.getLast?_concat]
    have hsplit : whole = (p ++ before ++ run) ++ t :: (us ++ q) := by simp [← hwhole]
    have hnot : t ∉ us ++ q := by
      rw [hsplit] at hnodup
      exact (nodup_cons.mp (nodup_append.mp hnodup).2.1).1
    have hnil : us ++ q = [] := by
      cases hrest : us ++ q with
      | nil => rfl
      | cons u rest =>
        obtain ⟨last, hmem⟩ : ∃ last, (u :: rest).getLast? = some last := ⟨_, List.getLast?_cons⟩
        rw [hsplit, hrest, List.getLast?_append, List.getLast?_cons_cons, hmem, Option.some_or] at hend
        cases hend
        exact absurd (hrest ▸ mem_of_getLast? hmem) hnot
    exact (append_eq_nil_iff.mp hnil).1

/-- The depth along the tokens of a tree, over what is known of its runs. -/
theorem passes_tokens {all : List Token} {ended : List Token → Prop} {kind : NodeKind} {cs : List Tree}
    (hended : IsEnd (node kind cs).tokens ended) (hlaid : (node kind cs).Every (Rule.LaidOut all))
    (hflat : (node kind cs).Every fun kind cs => kind.isFlat = true → Balanced (forestTokens cs))
    (hruns : (node kind cs).Every fun kind cs => kind.isRun = true →
      Passes ended 0 0 (forestTokens cs)) : Passes ended 0 0 (node kind cs).tokens := by
  refine passes_of_every isView_tokens hended hlaid ((hflat.and hruns).imp fun k ds hnode hkind => ?_) rfl
    (infix_refl _)
  rw [tokens_node k ds]
  cases hrun : k.isRun with
  | true => exact hnode.2 hrun
  | false => exact .inl (hnode.1 (by rwa [hrun, Bool.false_or] at hkind))

/-- What is known of the tokens of a run in a file with the tokens `all`: behind a first closing bracket
it closes only what it opens, and it leaves nothing open if something is behind it. -/
def RunCloses (all run : List Token) : Prop :=
  ∃ rest, (run ++ rest) <:+ all ∧
    ∃ after, depthFrom 0 (behindCloser run) = some after ∧ (rest ≠ [] → after = 0)

theorem runCloses_of_laidOut {all : List Token} {kind : NodeKind} {cs : List Tree}
    (h : Rule.LaidOut all kind cs) (hrun : kind.isRun = true) : RunCloses all (forestTokens cs) := by
  have hmatch : ∃ comma, (Layout.run comma).Matches all cs := by
    cases kind with
    | statement => exact ⟨false, h.1⟩
    | expr => exact ⟨true, h.1⟩
    | _ => cases hrun
  obtain ⟨comma, run, rest, rfl, hsuffix, htake⟩ := hmatch
  have hdepth := takeRun_depth comma (run ++ rest)
  rw [htake] at hdepth
  rw [forestTokens_map_token]
  exact ⟨rest, hsuffix, hdepth⟩

/-- A run that does not begin with a closing bracket is balanced, or goes on to the end of the file. -/
theorem RunCloses.balanced_or_last {all run : List Token} (h : RunCloses all run)
    (hfront : behindCloser run = run) : Balanced run ∨ run <:+ all ∧ (depthFrom 0 run).isSome = true := by
  obtain ⟨rest, hsuffix, after, hdepth, hafter⟩ := h
  rw [hfront] at hdepth
  cases rest with
  | cons t rest =>
    cases hafter (cons_ne_nil t rest)
    exact .inl hdepth
  | nil =>
    rw [append_nil] at hsuffix
    exact .inr ⟨hsuffix, by rw [hdepth]; rfl⟩

end Brackets

/-! ## Accepted files -/

/-- The brackets of a tree over all tokens of a file. -/
structure Tree.BracketsMatch (tree : Tree) : Prop where
  /-- Outside flat nodes the brackets are balanced. -/
  outside : Balanced tree.outside
  /-- Behind a first closing bracket a statement or an expression closes only what it opens, and it
  leaves nothing open if something is behind it. -/
  runs : tree.Every fun kind cs => kind.isRun = true → Brackets.RunCloses tree.tokens (forestTokens cs)
  /-- Over all tokens the depth does not drop below zero, if the other flat nodes are balanced and no
  statement or expression begins with a closing bracket. -/
  whole : (tree.Every fun kind cs => kind.isFlat = true → Balanced (forestTokens cs)) →
    (tree.Every fun kind cs => kind.isRun = true → behindCloser (forestTokens cs) = forestTokens cs) →
    (depthFrom 0 tree.tokens).isSome = true
  /-- It is zero at the end, if a statement or an expression that goes on to the end leaves nothing open. -/
  closed : (tree.Every fun kind cs => kind.isFlat = true → Balanced (forestTokens cs)) →
    (tree.Every fun kind cs => kind.isRun = true → behindCloser (forestTokens cs) = forestTokens cs) →
    (tree.Every fun kind cs => kind.isRun = true → forestTokens cs <:+ tree.tokens →
      Balanced (forestTokens cs)) →
    Balanced tree.tokens

/-- **The brackets of an accepted file.** -/
theorem brackets_of_parseSource {source : String} {tree : Tree} (h : parseSource source = .ok tree) :
    tokenize source = .ok tree.tokens ∧ tree.BracketsMatch := by
  obtain ⟨htokens, trees, rfl⟩ := tokens_of_parseWith Rule.lawful_sourceItems Rule.rest_of_sourceItems h
  have hlaid := laidOut_of_parse (.inl h)
  have hnodup : (Tree.node .sourceFile trees).tokens.Nodup :=
    (pairwise_start_of_tokenize htokens).imp fun hlt heq => by
    rw [heq] at hlt
    exact Nat.lt_irrefl _ hlt
  have hruns : (Tree.node .sourceFile trees).Every fun kind cs => kind.isRun = true →
      Brackets.RunCloses (Tree.node .sourceFile trees).tokens (Tree.forestTokens cs) :=
    hlaid.imp fun kind cs hnode => Brackets.runCloses_of_laidOut hnode
  refine ⟨htokens, ?_, hruns, ?_, ?_⟩
  · have hpasses := Brackets.passes_of_every Brackets.isView_outside (Brackets.isEnd_none _) hlaid
      (hlaid.imp fun kind cs _ hflat => .inl (by rw [Tree.outside_node, if_pos hflat]; rfl)) rfl
        (infix_refl _)
    exact hpasses.resolve_right fun hend => hend.1
  · intro hflat hfront
    have hpasses := Brackets.passes_tokens (Brackets.isEnd_atEnd hnodup) hlaid hflat
      ((hruns.and hfront).imp fun kind cs hnode hkind => ?_)
    · rcases hpasses with hpasses | ⟨-, hpasses⟩
      · rw [hpasses]
        rfl
      · exact hpasses
    · rcases (hnode.1 hkind).balanced_or_last (hnode.2 hkind) with hbalanced | ⟨hlast, hsome⟩
      · exact .inl hbalanced
      · by_cases hnil : Tree.forestTokens cs = []
        · exact .inl (by rw [hnil]; rfl)
        · exact .inr ⟨⟨_, hnil, suffix_refl _, hlast⟩, hsome⟩
  · intro hflat hfront hends
    have hpasses := Brackets.passes_tokens (Brackets.isEnd_none _) hlaid hflat
      (((hruns.and hfront).and hends).imp fun kind cs hnode hkind => .inl ?_)
    · exact hpasses.resolve_right fun hend => hend.1
    · obtain ⟨⟨hrun, hfirst⟩, hlast⟩ := hnode
      exact (hrun hkind).balanced_or_last (hfirst hkind) |>.elim id fun h => hlast hkind h.1

/-- All conditions hold of a file with calls, a closure and default values. -/
theorem brackets_of_parseSource_closed : ∃ tree,
    parseSource "struct S \x7b func f(a: [Int] = [g(1)]) \x7b h(\x7b [] \x7d) \x7d \x7d" = .ok tree ∧
      tree.BracketsMatch ∧ Balanced tree.tokens := by
  refine (exists_ok_of_test (P := fun tree : Tree =>
      (tree.Every fun kind cs => kind.isFlat = true → Balanced (Tree.forestTokens cs)) ∧
      (tree.Every fun kind cs => kind.isRun = true → behindCloser (Tree.forestTokens cs) =
      Tree.forestTokens cs) ∧ tree.Every fun kind cs => kind.isRun = true →
        Tree.forestTokens cs <:+ tree.tokens →
        Balanced (Tree.forestTokens cs)) (by decide +kernel)).imp fun tree h => ⟨h.1, ?_⟩
  obtain ⟨hparse, hflat, hfront, hends⟩ := h
  have hbrackets := (brackets_of_parseSource hparse).2
  exact ⟨hbrackets, hbrackets.closed hflat hfront hends⟩

/-- Files with brackets that do not match are accepted: a run may begin with a closing bracket, and it
may end with the file although a bracket is open. -/
theorem unbalanced_accepted :
    (∃ tree, parseSource ")" = .ok tree ∧ ¬Balanced tree.tokens) ∧
    (∃ tree, parseSource "let x = )" = .ok tree ∧ ¬Balanced tree.tokens) ∧
      ∃ tree, parseSource "f(" = .ok tree ∧ ¬Balanced tree.tokens :=
  ⟨exists_ok_of_test (by decide +kernel), exists_ok_of_test (by decide +kernel),
    exists_ok_of_test (by decide +kernel)⟩

end SwiftOutline
