import Mathlib.Tactic.Choose
import SwiftOutline.Proofs.Grammar.Origin

/-!
# `Scheme` — the grammar as data, and the levels of its trees

The rules for types and items are written over two rules that they call for inner types and inner items.
A scheme is such a rule as data: it says how the calls and the rules that make none are put together.
Whatever holds for every way of putting rules together can then be proved by one induction over schemes,
and every rule of the grammar has a scheme.

The first such fact is about levels. A tree has a level for each item and each type, where a type that is
wrapped into others, by attributes or a question mark, makes one level with them. One call reads one
level and leaves the others to the calls that it makes, so a tree that was read with `n` levels to spare
has at most `n` of them.
-/

namespace SwiftOutline

open List

/-! ## Levels of trees -/

/-- The kinds of node that make a level of their own: items, and types that are no mere wrapping of other
types. -/
def NodeKind.isLevel : NodeKind → Bool
  | statement | identifierType | arrayType | dictionaryType | tupleType | functionType => true
  | k => k.isDecl

theorem NodeKind.isLevel_of_isDecl {k : NodeKind} (h : k.isDecl = true) : k.isLevel = true := by
  cases k <;> first | rfl | cases h

namespace Tree

mutual

/-- The number of levels of a tree, along the path that has most of them. -/
def levels : Tree → Nat
  | token _ => 0
  | node kind cs =>
    if kind.isLevel then forestLevels cs + 1
    else if kind.isType then max 1 (forestLevels cs)
    else forestLevels cs

/-- The number of levels of the deepest one of several trees. -/
def forestLevels : List Tree → Nat
  | [] => 0
  | t :: ts => max t.levels (forestLevels ts)

end

variable {n : Nat} {t : Tree}

/-- The levels of a node by those below it. -/
theorem levels_node (kind : NodeKind) (cs : List Tree) : (node kind cs).levels =
    if kind.isLevel then forestLevels cs + 1 else if kind.isType then max 1
      (forestLevels cs) else forestLevels cs := by
  rw [levels]

/-- A forest is as deep as its deepest tree. -/
theorem forestLevels_le {f : List Tree} : forestLevels f ≤ n ↔ ∀ u ∈ f, u.levels ≤ n := by
  induction f with
  | nil => simp [forestLevels]
  | cons u f ih => rw [forestLevels, Nat.max_le, ih, forall_mem_cons]

theorem levels_le_forestLevels {f : List Tree} {u : Tree} (h : u ∈ f) : u.levels ≤ forestLevels f :=
  forestLevels_le.mp (Nat.le_refl _) u h

/-- A child has no more levels than the node. -/
theorem levels_le_of_mem_children {c : Tree} (h : c ∈ t.children) : c.levels ≤ t.levels := by
  cases t with
  | token t => cases h
  | node kind cs =>
    have hle := levels_le_forestLevels (show c ∈ cs from h)
    rw [levels_node]
    split
    · omega
    · split <;> omega

/-- A child of a node that makes a level has fewer levels. -/
theorem levels_lt_of_mem_children {c : Tree} (h : c ∈ t.children)
    (hkind : t.kind?.any NodeKind.isLevel = true) : c.levels < t.levels := by
  cases t with
  | token t => cases h
  | node kind cs =>
    rw [levels_node, if_pos (show kind.isLevel = true from hkind)]
    exact Nat.lt_succ_of_le (levels_le_forestLevels h)

/-- Where a level or a type is, there is one level at least. -/
theorem levels_pos (h : t.kind?.any NodeKind.isLevel = true ∨ t.isType = true) : 0 < t.levels := by
  cases t with
  | token t => rcases h with h | h <;> cases h
  | node kind cs =>
    rw [levels_node]
    split
    · omega
    · next hlevel =>
      rw [if_pos (show kind.isType = true from h.resolve_left hlevel)]
      omega

/-- A node that is no level adds none (`levels_node`). -/
theorem levels_node_le {kind : NodeKind} {cs : List Tree} (hlevel : kind.isLevel = false)
    (htype : kind.isType = true → 0 < n) (h : ∀ c ∈ cs, c.levels ≤ n) : (node kind cs).levels ≤ n := by
  have hle := forestLevels_le.mpr h
  rw [levels_node, if_neg (Bool.eq_false_iff.mp hlevel)]
  split
  · next hkind =>
    have := htype hkind
    omega
  · exact hle

/-- Any node adds one level at most (`levels_node`). -/
theorem levels_node_le_succ {cs : List Tree} (kind : NodeKind) (h : ∀ c ∈ cs, c.levels ≤ n) :
    (node kind cs).levels ≤ n + 1 := by
  have hle := forestLevels_le.mpr h
  rw [levels_node]
  split
  · omega
  · split <;> omega

end Tree

/-! ## Schemes -/

namespace Rule

/-- The rule reads a single node. -/
def MakesNode (p : Rule) : Prop :=
  ∀ ⦃ts f rest⦄, p ts = .ok (f, rest) → ∃ kind cs, f = [Tree.node kind cs]

variable {p q : Rule}

theorem MakesNode.either (hp : MakesNode p) (hq : MakesNode q) (ask : Lookahead) :
    MakesNode (either ask p q) := by
  intro ts f rest h
  unfold Rule.either at h
  split at h
  · exact hp h
  · exact hq h

theorem makesNode_node (kind : NodeKind) (p : Rule) : MakesNode (node kind p) := by
  intro ts f rest h
  obtain ⟨cs, -, rfl⟩ := node_eq_ok h
  exact ⟨kind, cs, rfl⟩

/-- By `closing_eq_ok`: its outcome is one node. -/
theorem makesNode_closing (first : NodeKind) (p : Rule) (ask : List Token → NodeKind × Rule) :
    MakesNode (closing first p ask) := by
  intro ts f rest h
  obtain ⟨f₁, mid, f₂, -, -, rfl⟩ := closing_eq_ok h
  exact ⟨_, _, rfl⟩

/-- By `wrappings_induction`: one node is put around another. -/
theorem MakesNode.wrapping (hp : MakesNode p) (ask : Form) :
    MakesNode (wrapping p ask) := by
  intro ts f rest h
  obtain ⟨f₁, mid, h₁, h₂⟩ := wrapping_eq_ok h
  refine wrappings_induction (motive := fun f _ f' _ => (∃ kind cs, f = [.node kind cs]) →
    ∃ kind cs, f' = [.node kind cs])
    ?_ ?_ ?_ h₂ (hp h₁)
  · exact fun _ _ _ hf => hf
  · exact fun _ _ _ _ _ _ _ _ _ _ => ⟨_, _, rfl⟩
  · exact fun _ _ _ _ _ _ _ _ _ _ _ _ hrest _ => hrest ⟨_, _, rfl⟩

theorem makesNode_primaryType (inner : Rule) : MakesNode (primaryType inner) :=
  MakesNode.either (makesNode_closing _ _ _) (MakesNode.either (makesNode_closing _ _ _)
    (MakesNode.either (makesNode_node _ _) (by intro ts f rest h; cases h) _) _) _

theorem makesNode_simpleType (inner : Rule) : MakesNode (simpleType inner) := by
  have hpostfix : MakesNode (postfixType inner) := (makesNode_primaryType inner).wrapping _
  exact (makesNode_node _ _).either ((makesNode_node _ _).either ((makesNode_node _ _).either hpostfix _) _) _

end Rule

/-- A rule as data, up to the rules for types and items that it calls. -/
inductive Scheme where
  /-- A run of tokens. -/
  | plain (split : List Token → Except Fault (List Token × List Token))
  | type
  | item
  | seq (g h : Scheme)
  | node (kind : NodeKind) (g : Scheme)
  | closing (first : NodeKind) (g : Scheme) (kind : List Token → NodeKind) (next : List Token → Scheme)
  | many (ask : Lookahead) (g : Scheme)
  | wrapping (g : Scheme) (kind : List Token → Option NodeKind) (next : List Token → Scheme)
  | chain (kind : NodeKind) (g : Scheme) (link : String)
  /-- The tokens ahead decide which scheme it is. -/
  | given (choose : List Token → Scheme)

namespace Scheme

/-- The rule that a scheme stands for. -/
def read {F : Type} [Append F] [Yield F] (type item : Rule F) : Scheme → Rule F
  | plain split => .run split
  | .type => type
  | .item => item
  | seq g h => g.read type item ++ h.read type item
  | node kind g => .node kind (g.read type item)
  | closing first g kind next =>
    .closing first (g.read type item) fun ts => (kind ts, (next ts).read type item)
  | many ask g => .many ask (g.read type item)
  | wrapping g kind next =>
    .wrapping (g.read type item) fun ts => (kind ts).map fun k => (k, (next ts).read type item)
  | chain kind g link => .chain kind (g.read type item) link
  | given choose => fun ts => (choose ts).read type item ts

/-- At most `n` of the nodes around a call make levels, and runs keep their tokens. A node that wraps
    types stands where a level is allowed, and around a single node. -/
def Bounded (n : Nat) : Scheme → Prop
  | plain split => (Rule.run split).Keeps
  | type => True
  | item => True
  | seq g h => g.Bounded n ∧ h.Bounded n
  | node kind g =>
    if kind.isLevel then 0 < n ∧ g.Bounded (n - 1) else (kind.isType = true → 0 < n) ∧ g.Bounded n
  | closing _ g _ next => 0 < n ∧ g.Bounded (n - 1) ∧ ∀ ts, (next ts).Bounded (n - 1)
  | many _ g => g.Bounded n
  | wrapping g kind next =>
    (0 < n ∧ ∀ type item, (g.read type item).MakesNode) ∧ g.Bounded n ∧
      ∀ ts k, kind ts = some k → k.isLevel = false ∧ (next ts).Bounded n
  | chain kind g _ => kind.isLevel = false ∧ kind.isType = false ∧ g.Bounded n
  | given choose => ∀ ts, (choose ts).Bounded n

/-- Something is read before a call is made. -/
def Late : Scheme → Prop
  | plain _ => True
  | type => False
  | item => False
  | seq g h => g.Late ∧ (h.Late ∨ ∀ type item : Rule, (g.read type item).Consumes)
  | node _ g => g.Late
  | closing _ g _ next => g.Late ∧ ∀ ts, (next ts).Late
  | many _ g => g.Late
  | wrapping g kind next => g.Late ∧ ∀ ts k, kind ts = some k → (next ts).Late
  | chain _ g _ => g.Late
  | given choose => ∀ ts, (choose ts).Late

end Scheme

namespace Rule

/-- The trees that the rule reads have at most `n` levels. -/
def Shallow (n : Nat) (p : Rule) : Prop :=
  ∀ ⦃ts : List Token⦄ ⦃f : List Tree⦄ ⦃rest : List Token⦄, p ts = .ok (f, rest) → ∀ u ∈ f, u.levels ≤ n

variable {n : Nat} {p : Rule}

/-- Tokens have no levels. -/
theorem shallow_run (split : List Token → Except Fault (List Token × List Token)) :
    Shallow n (run split) := by
  intro ts f rest hok u hu
  obtain ⟨front, -, rfl⟩ := run_eq_ok hok
  obtain ⟨t, -, rfl⟩ := mem_map.mp hu
  exact Nat.zero_le _

/-- What a node takes in behind what was read adds no level. -/
theorem shallow_node_append {kind : NodeKind} {f g : List Tree} (hkind : kind.isLevel = false) (hn : 0 < n)
    (hf : ∀ u ∈ f, u.levels ≤ n) (hg : ∀ u ∈ g, u.levels ≤ n) :
    ∀ u ∈ [Tree.node kind (f ++ g)], u.levels ≤ n := by
  intro u hu
  cases mem_singleton.mp hu
  refine Tree.levels_node_le hkind (fun _ => hn) fun c hc => ?_
  rcases mem_append.mp hc with hc | hc
  · exact hf c hc
  · exact hg c hc

/-- **The levels of what a scheme reads** are those of its calls, and those that stand around them. -/
theorem shallow_read {g : Scheme} {type item : Rule} {m : Nat} (htype : Shallow m type)
    (hitem : Shallow m item) (hg : g.Bounded n) : Shallow (m + n) (g.read type item) := by
  induction g generalizing n with
  | plain split => exact shallow_run split
  | type =>
    intro ts f rest hok u hu
    exact Nat.le_add_right_of_le (htype hok u hu)
  | item =>
    intro ts f rest hok u hu
    exact Nat.le_add_right_of_le (hitem hok u hu)
  | seq g h ihg ihh =>
    intro ts f rest hok u hu
    obtain ⟨f₁, mid, f₂, h₁, h₂, rfl⟩ := seq_eq_ok hok
    rcases mem_append.mp hu with hu | hu
    · exact ihg hg.1 h₁ u hu
    · exact ihh hg.2 h₂ u hu
  | node kind g ih =>
    intro ts f rest hok u hu
    obtain ⟨cs, hcs, rfl⟩ := node_eq_ok hok
    cases mem_singleton.mp hu
    unfold Scheme.Bounded at hg
    split at hg
    · obtain ⟨k, rfl⟩ := Nat.exists_eq_add_one.mpr hg.1
      exact Tree.levels_node_le_succ kind (ih hg.2 hcs)
    · next hkind =>
      refine Tree.levels_node_le (Bool.eq_false_iff.mpr hkind) (fun htype => ?_) (ih hg.2 hcs)
      exact Nat.add_pos_right m (hg.1 htype)
  | closing first g kind next ih ihnext =>
    intro ts f rest hok u hu
    obtain ⟨f₁, mid, f₂, h₁, h₂, rfl⟩ := closing_eq_ok hok
    cases mem_singleton.mp hu
    obtain ⟨hpos, hfirst, hnext⟩ := hg
    obtain ⟨k, rfl⟩ := Nat.exists_eq_add_one.mpr hpos
    refine Tree.levels_node_le_succ _ fun c hc => ?_
    rcases mem_append.mp hc with hc | hc
    · exact ih hfirst h₁ c hc
    · exact ihnext mid (hnext mid) h₂ c hc
  | many ask g ih =>
    intro ts f rest hok
    refine many_induction (motive := fun _ f _ => ∀ u ∈ f, u.levels ≤ m + n) ?_ ?_ ?_ hok
    · intro ts _ u hu
      cases hu
    · intro ts f rest _ hround _
      exact ih hg hround
    · intro ts f mid f' rest _ hround _ _ hrest u hu
      rcases mem_append.mp hu with hu | hu
      · exact ih hg hround u hu
      · exact hrest u hu
  | wrapping g kind next ih ihnext =>
    intro ts f rest hok
    obtain ⟨f₁, mid, h₁, h₂⟩ := wrapping_eq_ok hok
    obtain ⟨⟨hpos, -⟩, hfirst, hnext⟩ := hg
    have hpos' : 0 < m + n := Nat.add_pos_right m hpos
    -- the node of a round is no level, and its rule is bounded
    have hform : ∀ {ts k q}, (kind ts).map (fun k => (k, (next ts).read type item)) = some (k, q) →
        k.isLevel = false ∧ Shallow (m + n) q := by
      intro ts k q hsome
      obtain ⟨k', hk', heq⟩ := Option.map_eq_some_iff.mp hsome
      obtain ⟨rfl, rfl⟩ := Prod.mk.inj heq
      exact ⟨(hnext ts k' hk').1, ihnext ts (hnext ts k' hk').2⟩
    refine wrappings_induction
      (motive := fun f _ f' _ => (∀ u ∈ f, u.levels ≤ m + n) → ∀ u ∈ f', u.levels ≤ m + n) ?_ ?_ ?_ h₂
      (ih hfirst h₁)
    · intro f ts _ hf
      exact hf
    · intro f ts k q g' rest hask hq _ hf
      exact shallow_node_append (hform hask).1 hpos' hf ((hform hask).2 hq)
    · intro f ts k q g' mid f' rest hask hq _ _ hrest hf
      exact hrest (shallow_node_append (hform hask).1 hpos' hf ((hform hask).2 hq))
  | chain kind g link ih =>
    intro ts f rest hok
    refine chain_induction (motive := fun _ f _ => ∀ u ∈ f, u.levels ≤ m + n) ?_ ?_ hok
    · intro ts f rest hpart _ u hu
      cases mem_singleton.mp hu
      exact Tree.levels_node_le hg.1 (by simp [hg.2.1]) (ih hg.2.2 hpart)
    · intro ts f mid f' rest hpart _ _ _ hrest u hu
      rcases mem_cons.mp hu with rfl | hu
      · refine Tree.levels_node_le hg.1 (by simp [hg.2.1]) fun c hc => ?_
        rcases mem_append.mp hc with hc | hc
        · exact ih hg.2.2 hpart c hc
        · obtain ⟨t, -, rfl⟩ := mem_map.mp hc
          exact Nat.zero_le _
      · exact hrest u hu
  | given choose ih =>
    intro ts f rest hok
    exact ih ts (hg ts) hok

end Rule

/-! ## Rules that have a scheme -/

/-- A rule that calls a rule for types and one for items, whatever is made of the tokens. -/
abbrev Calling := ∀ {F : Type} [Append F] [Yield F], Rule F → Rule F → Rule F

/-- The rule has a scheme with at most `n` levels around a call. If it is late, then something is read
before a call. -/
def Schematic (n : Nat) (late : Bool) (p : Calling) : Prop :=
  ∃ g : Scheme, g.Bounded n ∧ (late = true → g.Late) ∧
    ∀ {F : Type} [Append F] [Yield F] (type item : Rule F), g.read type item = p type item

namespace Schematic

open Rule

variable {n : Nat} {l : Bool} {p q : Calling}

/-- A run of tokens calls nothing. -/
theorem plain {split : List Token → Except Fault (List Token × List Token)} (h : Keeps (run split)) :
    Schematic n l fun _ _ => run split :=
  ⟨.plain split, h, fun _ => trivial, fun _ _ => rfl⟩

/-- A run that must not be empty is a run again. -/
theorem nonempty {split : List Token → Except Fault (List Token × List Token)} (h : Keeps (run split))
    (what : String) : Schematic n l fun _ _ => nonempty what (run split) := by
  have hrun {F : Type} [Append F] [Yield F] : (Rule.nonempty what (run split) : Rule F) = run fun ts =>
      andThen (split ts) fun front rest =>
        if rest.length < ts.length then .ok (front, rest) else .error (.expected what ts.head?) := by
    funext ts
    simp only [Rule.nonempty, run]
    cases split ts with
    | error e => rfl
    | ok cut =>
      obtain ⟨front, rest⟩ := cut
      simp only [andThen_ok]
      split <;> rfl
  refine ⟨.plain _, ?_, fun _ => trivial, fun _ _ => hrun.symm⟩
  rw [Scheme.Bounded, ← hrun]
  exact h.nonempty what

/-- The call for a type is a scheme of its own. -/
theorem type : Schematic n false fun type _ => type := ⟨.type, trivial, nofun, fun _ _ => rfl⟩

/-- So is the call for an item. -/
theorem item : Schematic n false fun _ item => item := ⟨.item, trivial, nofun, fun _ _ => rfl⟩

/-- The schemes stand one behind the other. -/
theorem seq (hp : Schematic n l p) (hq : Schematic n l q) :
    Schematic n l fun type item => p type item ++ q type item := by
  obtain ⟨g, hg, hglate, hgread⟩ := hp
  obtain ⟨h, hh, hhlate, hhread⟩ := hq
  refine ⟨.seq g h, ⟨hg, hh⟩, fun hl => ⟨hglate hl, .inl (hhlate hl)⟩, fun type item => ?_⟩
  show g.read type item ++ h.read type item = _
  rw [hgread, hhread]

/-- Behind a rule that reads something any call may be made. -/
theorem behind (hp : Schematic n l p) (hq : Schematic n false q)
    (hreads : ∀ type item, Consumes (p type item)) :
    Schematic n l fun type item => p type item ++ q type item := by
  obtain ⟨g, hg, hglate, hgread⟩ := hp
  obtain ⟨h, hh, -, hhread⟩ := hq
  refine ⟨.seq g h, ⟨hg, hh⟩, fun hl => ⟨hglate hl, .inr fun type item => ?_⟩, fun type item => ?_⟩
  · rw [hgread]
    exact hreads type item
  · show g.read type item ++ h.read type item = _
    rw [hgread, hhread]

/-- The tokens ahead decide which of several rules is read. -/
theorem given (h : ∀ ts, ∃ q : Calling, Schematic n l q ∧
    ∀ {F : Type} [Append F] [Yield F] (type item : Rule F), p type item ts = q type item ts) :
    Schematic n l p := by
  choose q hq heq using h
  choose g hg hlate hread using hq
  refine ⟨.given g, hg, fun hl ts => hlate ts hl, fun type item => funext fun ts => ?_⟩
  show (g ts).read type item ts = p type item ts
  rw [hread, heq]

/-- The question chooses between two schemes. -/
theorem either (hp : Schematic n l p) (hq : Schematic n l q) (ask : Lookahead) :
    Schematic n l fun type item => either ask (p type item) (q type item) := by
  refine given fun ts => ?_
  by_cases hask : ask ts = true
  · exact ⟨p, hp, fun _ _ => if_pos hask⟩
  · exact ⟨q, hq, fun _ _ => if_neg hask⟩

theorem nothing : Schematic n l fun _ _ => nothing := plain keeps_nothing

theorem bumps (k : Nat) : Schematic n l fun _ _ => bumps k := plain (keeps_bumps k)

theorem bump : Schematic n l fun _ _ => bump := bumps 1

theorem group : Schematic n l fun _ _ => group := plain lawful_group.keeps

theorem optional (hp : Schematic n l p) (ask : Lookahead) :
    Schematic n l fun type item => optional ask (p type item) :=
  hp.either nothing ask

theorem require (hp : Schematic n l p) (ask : Lookahead) (what : String) :
    Schematic n l fun type item => require ask what (p type item) :=
  hp.either (plain (keeps_fail what)) ask

theorem expect (text : String) : Schematic n l fun _ _ => expect text := bump.require _ _

theorem expectWord (what : String) : Schematic n l fun _ _ => expectWord what := bump.require _ _

variable {kind : NodeKind}

/-- A node that makes no level, and wraps types only where a level is allowed. -/
theorem node_of (hp : Schematic n l p) (hlevel : kind.isLevel = false)
    (htype : kind.isType = true → 0 < n) : Schematic n l fun type item => node kind (p type item) := by
  obtain ⟨g, hg, hlate, hread⟩ := hp
  refine ⟨.node kind g, ?_, hlate, fun type item => ?_⟩
  · rw [Scheme.Bounded, if_neg (Bool.eq_false_iff.mp hlevel)]
    exact ⟨htype, hg⟩
  · exact congrArg (node kind) (hread type item)

variable {kind : NodeKind}

/-- By `node_of`, as the kind is neither a level nor a type. -/
theorem node (hp : Schematic n l p) (hkind : (kind.isLevel || kind.isType) = false) :
    Schematic n l fun type item => node kind (p type item) := by
  obtain ⟨hlevel, htype⟩ := Bool.or_eq_false_iff.mp hkind
  exact hp.node_of hlevel (by simp [htype])

/-- A node that wraps types. -/
theorem cover (hp : Schematic (n + 1) l p) (hkind : kind.isLevel = false) :
    Schematic (n + 1) l fun type item => Rule.node kind (p type item) :=
  hp.node_of hkind fun _ => Nat.succ_pos n

/-- A node that makes a level. -/
theorem level (hp : Schematic n l p) (hkind : kind.isLevel = true) :
    Schematic (n + 1) l fun type item => Rule.node kind (p type item) := by
  obtain ⟨g, hg, hlate, hread⟩ := hp
  refine ⟨.node kind g, ?_, hlate, fun type item => ?_⟩
  · rw [Scheme.Bounded, if_pos hkind]
    exact ⟨Nat.succ_pos n, hg⟩
  · exact congrArg (Rule.node kind) (hread type item)

/-- The second scheme is chosen by what the first leaves. -/
theorem closing {first : NodeKind}
    {ask : ∀ {F : Type} [Append F] [Yield F], Rule F → Rule F → List Token → NodeKind × Rule F}
    (hp : Schematic n l p)
    (hask : ∀ ts, ∃ (kind : NodeKind) (q : Calling), Schematic n l q ∧
      ∀ {F : Type} [Append F] [Yield F] (type item : Rule F), ask type item ts = (kind, q type item)) :
    Schematic (n + 1) l fun type item => closing first (p type item) (ask type item) := by
  obtain ⟨g, hg, hlate, hread⟩ := hp
  choose kind q hq heq using hask
  choose next hnext hnextlate hnextread using hq
  refine ⟨.closing first g kind next, ⟨Nat.succ_pos n, hg, hnext⟩,
    fun hl => ⟨hlate hl, fun ts => hnextlate ts hl⟩, fun type item => ?_⟩
  refine congrArg₂ (Rule.closing first) (hread type item) (funext fun ts => ?_)
  rw [hnextread, heq]

/-- A scheme is repeated while the question is answered. -/
theorem many (hp : Schematic n l p) (ask : Lookahead) :
    Schematic n l fun type item => many ask (p type item) := by
  obtain ⟨g, hg, hlate, hread⟩ := hp
  refine ⟨.many ask g, hg, hlate, fun type item => ?_⟩
  exact congrArg (Rule.many ask) (hread type item)

/-- Nodes that wrap types are put around what the rule reads. -/
theorem wrapping
    {ask : ∀ {F : Type} [Append F] [Yield F], Rule F → Rule F → List Token → Option (NodeKind × Rule F)}
    (hp : Schematic (n + 1) l p) (hnode : ∀ type item, MakesNode (p type item))
    (hask : ∀ ts, (∀ {F : Type} [Append F] [Yield F] (type item : Rule F), ask type item ts = none) ∨
      ∃ (kind : NodeKind) (q : Calling), kind.isLevel = false ∧ Schematic (n + 1) l q ∧
      ∀ {F : Type} [Append F] [Yield F] (type item : Rule F), ask type item ts = some (kind, q type item)) :
    Schematic (n + 1) l fun type item => wrapping (p type item) (ask type item) := by
  obtain ⟨g, hg, hlate, hread⟩ := hp
  have hform : ∀ ts, ∃ (kind : Option NodeKind) (next : Scheme),
      (∀ k, kind = some k → k.isLevel = false ∧ next.Bounded (n + 1)) ∧
      (∀ k, kind = some k → l = true → next.Late) ∧ ∀ {F : Type} [Append F] [Yield F] (type item : Rule F),
        ask type item ts = kind.map fun k => (k, next.read type item) := by
    intro ts
    rcases hask ts with hnone | ⟨k, q, hk, ⟨next, hnext, hnextlate, hnextread⟩, hsome⟩
    · exact ⟨none, .type, nofun, nofun, hnone⟩
    · refine ⟨some k, next, ?_, fun _ _ => hnextlate, fun type item => ?_⟩
      · intro k' hk'
        cases hk'
        exact ⟨hk, hnext⟩
      · rw [hsome, Option.map_some, hnextread]
  choose kind next hbounded hnextlate heq using hform
  refine ⟨.wrapping g kind next,
    ⟨⟨Nat.succ_pos n, fun type item => hread type item ▸ hnode type item⟩, hg, hbounded⟩,
      fun hl => ⟨hlate hl, fun ts k hk => hnextlate ts k hk hl⟩, fun type item => ?_⟩
  refine congrArg₂ Rule.wrapping (hread type item) (funext fun ts => ?_)
  rw [heq]

/-- A scheme is repeated behind each link. -/
theorem chain (hp : Schematic n l p) (hkind : (kind.isLevel || kind.isType) = false) (link : String) :
    Schematic n l fun type item => chain kind (p type item) link := by
  obtain ⟨g, hg, hlate, hread⟩ := hp
  obtain ⟨hlevel, htype⟩ := Bool.or_eq_false_iff.mp hkind
  refine ⟨.chain kind g link, ⟨hlevel, htype, hg⟩, hlate, fun type item => ?_⟩
  exact congrArg (Rule.chain kind · link) (hread type item)

/-! ### Types -/

theorem declAttribute : Schematic n l fun _ _ => declAttribute :=
  (((bump.seq (expectWord _)).seq ((bumps 2).many _)).seq ((group.node rfl).optional _)).node rfl

theorem attributeList : Schematic n l fun _ _ => attributeList := (declAttribute.many _).node rfl

theorem effectSpecifiers : Schematic n l fun _ _ => effectSpecifiers :=
  (((bump.seq (group.optional _)).either bump _).many _).node rfl

theorem initializerClause : Schematic n l fun _ _ => initializerClause :=
  (bump.seq ((nonempty lawful_exprRun.keeps _).node rfl)).node rfl

/-- Between two entries, or in front of the end. -/
theorem separator (closer what : String) :
    Schematic n l fun _ _ => Rule.either (sees ",") Rule.bump
      (Rule.require (sees closer) what Rule.nothing) :=
  bump.either (nothing.require _ _) _

/-- Entries up to a closing token. -/
theorem entries (hp : Schematic n l p) (closer what : String) :
    Schematic n l fun type item => Rule.many (fun ts => !sees closer ts)
      (Rule.require (fun ts => !seesEnd ts) what (p type item)) :=
  (hp.require _ _).many _

theorem elementRest : Schematic n l fun _ _ => elementRest :=
  ((bump.optional _).seq (initializerClause.optional _)).seq (separator _ _)

theorem genericArgumentClause : Schematic n l fun type _ => genericArgumentClause type :=
  ((bump.behind (((type.seq (separator _ _)).node rfl).entries _ _)
    fun _ _ => consumes_bump).seq bump).node rfl

/-- Labels, a type, and what may follow it. -/
theorem tupleElement (hkind : (kind.isLevel || kind.isType) = false) :
    Schematic n false fun type _ => tupleElement type kind :=
  ((((bumps 2).either ((bumps 3).optional _) _).seq type).seq elementRest).node hkind

/-- A tuple type, or a function type behind its arrow. -/
theorem parenType : Schematic (n + 1) l fun type _ => parenType type := by
  have helements : Schematic n false fun type _ =>
      Rule.node .tupleTypeElementList (elements (Rule.tupleElement type .tupleTypeElement)) :=
    ((tupleElement rfl).entries _ _).node rfl
  have heffects := lawful_effectSpecifiers.optional Lookahead.natural_seesEffect
  refine closing ((bump.behind helements fun _ _ => consumes_bump).seq bump) fun ts => ?_
  by_cases harrow : seesFunctionArrow ts = true
  · exact ⟨_, _, ((effectSpecifiers.optional seesEffect).seq bump).behind type
      fun _ _ => consumes_bump.seq_right heffects lawful_bump, fun _ _ => if_pos harrow⟩
  · exact ⟨_, _, nothing, fun _ _ => if_neg harrow⟩

/-- An array or a dictionary type. -/
theorem collectionType : Schematic (n + 1) l fun type _ => collectionType type := by
  refine closing (bump.behind type fun _ _ => consumes_bump) fun ts => ?_
  by_cases hcolon : sees ":" ts = true
  · exact ⟨_, _, (bump.behind type fun _ _ => consumes_bump).seq (expect "]"), fun _ _ => if_pos hcolon⟩
  · exact ⟨_, _, expect "]", fun _ _ => if_neg hcolon⟩

theorem primaryType : Schematic (n + 1) l fun type _ => primaryType type :=
  parenType.either (collectionType.either
    (((bump.seq (genericArgumentClause.optional _)).level rfl).require _ _) _) _

/-- Members, marks of optionals and metatypes behind a type. -/
theorem postfixType : Schematic (n + 1) l fun type _ => postfixType type := by
  refine wrapping primaryType (fun type _ => makesNode_primaryType type) fun ts => ?_
  unfold postfixForm
  split
  · exact .inr ⟨_, _, rfl, bump, fun _ _ => rfl⟩
  split
  · exact .inr ⟨_, _, rfl, bump, fun _ _ => rfl⟩
  split
  · split
    · exact .inr ⟨_, _, rfl, bumps 2, fun _ _ => rfl⟩
    · exact .inr ⟨_, _, rfl, (bumps 2).seq (genericArgumentClause.optional (sees "<")), fun _ _ => rfl⟩
  · exact .inl fun _ _ => rfl

theorem simpleType : Schematic (n + 1) l fun type _ => simpleType type :=
  ((((bump.many _).seq (attributeList.optional _)).seq postfixType).cover rfl).either
    (((bump.seq postfixType).cover rfl).either (((bump.seq postfixType).cover rfl).either postfixType _) _) _

/-- **One level of types has a scheme.** -/
theorem typeBody : Schematic (n + 1) l fun type _ => typeBody type := by
  refine wrapping simpleType (fun type _ => makesNode_simpleType type) fun ts => ?_
  unfold compositionForm
  split
  · exact .inr ⟨_, _, rfl, (bump.seq simpleType).many (sees "&"), fun _ _ => rfl⟩
  · exact .inl fun _ _ => rfl

/-! ### Items -/

theorem name : Schematic n l fun _ _ => name := (expectWord _).node rfl

theorem genericParameterClause : Schematic n false fun type _ => genericParameterClause type := by
  have hparameter : Schematic n false fun type _ => genericParameter type :=
    ((((bump.optional _).seq (expectWord _)).seq ((bump.seq type).optional _)).seq (separator _ _)).node rfl
  exact ((bump.seq (hparameter.entries _ _)).seq bump).node rfl

theorem inheritanceClause : Schematic n false fun type _ => inheritanceClause type :=
  (bump.seq (type.chain rfl _)).node rfl

theorem whereClause : Schematic n l fun _ _ => whereClause :=
  (bump.seq (nonempty lawful_requirements.keeps _)).node rfl

/-- Attributes, names, a type and a default value. -/
theorem functionParameter : Schematic n false fun type _ => functionParameter type :=
  ((((((attributeList.optional _).seq (expectWord _)).seq (bump.optional _)).seq (expect _)).seq type).seq
    elementRest).node rfl

/-- Parameters, effects and a result. -/
theorem functionSignature : Schematic n false fun type _ => functionSignature type :=
  (((((expect _).seq (functionParameter.entries _ _)).seq bump).node rfl).seq
    (effectSpecifiers.optional _)).seq
    (((bump.seq type).node rfl).optional _) |>.node rfl

theorem typeInitializer : Schematic n false fun type _ => typeInitializer type :=
  ((expect _).seq type).node rfl

theorem accessorBlock : Schematic n l fun _ _ => accessorBlock := group.node rfl

/-- Items between braces. -/
theorem itemBlock (hkind : (kind.isLevel || kind.isType) = false) :
    Schematic n false fun _ item => itemBlock item kind :=
  (((expect _).seq (item.entries _ _)).seq bump).node hkind

theorem body : Schematic n false fun _ item => body item := (itemBlock rfl).optional _

theorem functionName : Schematic n l fun _ _ => functionName :=
  (bump.either ((bump.require _ _).seq (bump.many _)) _).node rfl

theorem importRest : Schematic n l fun _ _ => importRest :=
  (bump.optional _).seq (((expectWord _).seq ((bumps 2).many _)).node rfl)

theorem containerRest : Schematic n false fun type item => containerRest type item :=
  (((genericParameterClause.optional _).seq (inheritanceClause.optional _)).seq (whereClause.optional _)).seq
    (itemBlock rfl)

theorem signatureRest : Schematic n false fun type _ => signatureRest type :=
  ((genericParameterClause.optional _).seq functionSignature).seq (whereClause.optional _)

/-- A pattern with its type, value and accessors. -/
theorem patternBinding : Schematic n false fun type _ => patternBinding type :=
  (((((group.either (expectWord _) _).node rfl).seq (((bump.seq type).node rfl).optional _)).seq
    (initializerClause.optional _)).seq (accessorBlock.optional _)).node rfl

theorem variableRest : Schematic n false fun type _ => variableRest type :=
  patternBinding.seq ((bump.seq patternBinding).many _)

theorem typealiasRest : Schematic n false fun type _ => typealiasRest type :=
  ((name.seq (genericParameterClause.optional _)).seq typeInitializer).seq (whereClause.optional _)

theorem associatedTypeRest : Schematic n false fun type _ => associatedTypeRest type :=
  ((name.seq (inheritanceClause.optional _)).seq (typeInitializer.optional _)).seq (whereClause.optional _)

theorem enumCaseElement : Schematic n false fun type _ => enumCaseElement type :=
  ((name.seq ((((bump.seq ((tupleElement rfl).entries _ _)).seq bump).node rfl).optional _)).seq
    (initializerClause.optional _)).node rfl

theorem enumCaseRest : Schematic n false fun type _ => enumCaseRest type :=
  enumCaseElement.seq ((bump.seq enumCaseElement).many _)

theorem operatorRest : Schematic n l fun _ _ => operatorRest :=
  (functionName.seq ((((bump.seq (expectWord _)).seq ((bump.seq (expectWord _)).many _)).node
    rfl).optional _)).seq
    ((group.node rfl).optional _)

theorem precedenceGroupRest : Schematic n l fun _ _ => precedenceGroupRest :=
  name.seq ((group.require _ _).node rfl)

/-- By cases on what is declared. -/
theorem declarationRest (kind : NodeKind) :
    Schematic n false fun type item => declarationRest type item kind := by
  unfold Rule.declarationRest
  split
  · exact importRest
  · exact name.seq containerRest
  · exact name.seq containerRest
  · exact name.seq containerRest
  · exact name.seq containerRest
  · exact name.seq containerRest
  · exact type.seq containerRest
  · exact (functionName.seq signatureRest).seq body
  · exact ((bump.optional _).seq signatureRest).seq body
  · exact body
  · exact signatureRest.seq (accessorBlock.optional _)
  · exact variableRest
  · exact typealiasRest
  · exact associatedTypeRest
  · exact enumCaseRest
  · exact operatorRest
  · exact precedenceGroupRest

theorem introducer : Schematic n l fun _ _ => introducer := by
  have hmodifier : Schematic n l fun _ _ => declModifier :=
    (given fun ts => ⟨_, bumps ((modifierLength? ts).getD 1), fun _ _ => rfl⟩).node rfl
  exact ((attributeList.optional _).seq (((hmodifier.many _).node rfl).optional _)).seq bump

/-- A declaration is a level, so its parts are one less deep. -/
theorem declaration (hkind : kind.isDecl = true) :
    Schematic (n + 1) l fun type item => declaration type item kind :=
  (introducer.behind (declarationRest kind) fun _ _ => consumes_introducer).level
    (NodeKind.isLevel_of_isDecl hkind)

theorem ifConfigClause : Schematic n l fun _ item => ifConfigClause item := by
  have hcondition : Schematic n l fun _ _ => ifConfigCondition :=
    ((bump.seq (bump.many _)).node rfl).require _ _
  exact ((bump.either (bump.seq hcondition) _).behind ((item.require _ _).many _) fun _ _ =>
    consumes_bump.either (consumes_bump.seq_left lawful_ifConfigCondition) _).node rfl

/-- So is a conditional block. -/
theorem ifConfig : Schematic (n + 1) l fun _ item => ifConfig item :=
  ((ifConfigClause.seq (ifConfigClause.many _)).seq bump).level rfl

theorem statement : Schematic (n + 1) l fun _ _ => statement :=
  ((plain lawful_statementRun.keeps).level rfl).require _ _

/-- **One level of items has a scheme.** -/
theorem itemBody : Schematic (n + 1) l fun type item => itemBody type item := by
  refine bump.either (ifConfig.either (given fun ts => ?_) _) _
  cases declarationStart? ts with
  | some rest => exact ⟨_, declaration (isDecl_declarationKind (textAt 0 rest)), fun _ _ => rfl⟩
  | none => exact ⟨_, statement, fun _ _ => rfl⟩

theorem sourceItems : Schematic n false fun _ item => Rule.many (fun ts => !seesEnd ts) item := item.many _

theorem soleType : Schematic n false fun type _ =>
    type ++ Rule.optional (seesKind .ellipsis) Rule.bump ++ Rule.require seesEnd "end of type" Rule.nothing :=
  (type.seq (bump.optional _)).seq (nothing.require _ _)

end Schematic

/-! ## Levels to spare -/

namespace Rule

/-- One level of the grammar adds one level to those of its calls. -/
theorem shallow_of_schematic {p : Calling} (hp : Schematic 1 false p) {type item : Rule} {n : Nat}
    (htype : Shallow n type) (hitem : Shallow n item) : Shallow (n + 1) (p type item) := by
  obtain ⟨g, hg, -, hread⟩ := hp
  have hshallow := shallow_read htype hitem hg
  rwa [hread] at hshallow

/-- **A type has no more levels than were to spare.** -/
theorem shallow_type (n : Nat) : Shallow n (type n) := by
  induction n with
  | zero =>
    intro ts f rest h
    cases h
  | succ n ih => exact shallow_of_schematic (p := fun type _ => typeBody type) Schematic.typeBody ih ih

/-- **An item has no more levels than were to spare.** -/
theorem shallow_item (n : Nat) : Shallow n (item n) := by
  induction n with
  | zero =>
    intro ts f rest h
    cases h
  | succ n ih => exact shallow_of_schematic Schematic.itemBody (shallow_type n) ih

end Rule

end SwiftOutline
