import SwiftOutline.Proofs.Grammar.Scheme

/-!
# `Agreement` — one level of the grammar over different rules

A level of the grammar is written over the rules that it calls for inner types and items. If two rules
for types have related outcomes, and so have two rules for items, then the levels over them have
(`Agree.read`, by induction over the scheme of the level). What is related is what the rules make. It may
be trees on both sides, which are then equal, or trees on the one side and what is made of the same
tokens otherwise on the other, such as the calls that store them.
-/

namespace SwiftOutline

variable {F : Type}

/-- A relation between trees and what else is made of tokens, kept by every way of making something. -/
structure Yield.Respects [Append F] [Yield F] (R : List Tree → F → Prop) : Prop where
  tokens : ∀ ts : List Token, R (ts.map .token) (Yield.tokens ts)
  append : ∀ {f f' g g'}, R f g → R f' g' → R (f ++ f') (g ++ g')
  node : ∀ {f g} kind, R f g → R [.node kind f] (Yield.node kind g)
  closing : ∀ {f f' g g'} first kind, R f g → R f' g' →
    R [.node kind (f ++ f')] (Yield.closing first kind g g')
  /-- Nodes are put around a single node. -/
  wrap : ∀ {k cs f' g g'} kind, R [.node k cs] g → R f' g' →
    R [.node kind ([.node k cs] ++ f')] (Yield.wrap kind g g')

theorem Yield.respects_eq : Respects (@Eq (List Tree)) where
  tokens _ := rfl
  append hf hg := by rw [hf, hg]
  node _ hf := by rw [hf]; rfl
  closing _ _ hf hg := by rw [hf, hg]; rfl
  wrap _ hf hg := by rw [← hf, hg]; rfl

namespace Rule

variable {R : List Tree → F → Prop} {allowed : Fault → Prop}

/-! ## Outcomes -/

/-- The outcomes are the same, with related results, unless the first is a fault that is allowed. -/
inductive SameBut (R : List Tree → F → Prop) (allowed : Fault → Prop) :
    Except Fault (List Tree × List Token) → Except Fault (F × List Token) → Prop
  | ok {f : List Tree} {g : F} (h : R f g) (rest : List Token) :
    SameBut R allowed (.ok (f, rest)) (.ok (g, rest))
  | error (e : Fault) : SameBut R allowed (.error e) (.error e)
  | allowed {e : Fault} (h : allowed e) (y : Except Fault (F × List Token)) : SameBut R allowed (.error e) y

namespace SameBut

variable {x : Except Fault (List Tree × List Token)} {y : Except Fault (F × List Token)}

/-- What goes on from the same outcomes has the same outcome. -/
theorem andThen {next : List Tree → List Token → Except Fault (List Tree × List Token)}
    {next' : F → List Token → Except Fault (F × List Token)} (h : SameBut R allowed x y)
    (hnext : ∀ f g rest, x = .ok (f, rest) → R f g → SameBut R allowed (next f rest) (next' g rest)) :
    SameBut R allowed (andThen x next) (andThen y next') := by
  cases h with
  | ok h rest => exact hnext _ _ rest rfl h
  | error e => exact .error e
  | allowed h y => exact .allowed h _

/-- A result is related to a result with the same rest. -/
theorem exists_ok {f : List Tree} {rest : List Token} (h : SameBut R allowed (.ok (f, rest)) y) :
    ∃ g, y = .ok (g, rest) ∧ R f g := by
  cases h with
  | ok h rest => exact ⟨_, rfl, h⟩

theorem refl (x : Except Fault (List Tree × List Token)) : SameBut Eq allowed x x := by
  cases x with
  | error e => exact .error e
  | ok out => exact .ok rfl out.2

/-- Related trees are the same. -/
theorem eq_or {y : Except Fault (List Tree × List Token)} (h : SameBut Eq allowed x y) :
    x = y ∨ ∃ e, allowed e ∧ x = .error e := by
  cases h with
  | ok h rest => exact .inl (by rw [h])
  | error e => exact .inl rfl
  | allowed h y => exact .inr ⟨_, h, rfl⟩

end SameBut

/-! ## Rules -/

/-- **On inputs of fewer than `bound` tokens the two rules have the same outcome**, with related results,
unless the first gives up there with a fault that is allowed. -/
structure Agree (R : List Tree → F → Prop) (allowed : Fault → Prop) (bound : Nat) (p : Rule) (q : Rule F) :
    Prop where
  keeps : Keeps p
  outcome : ∀ ⦃ts : List Token⦄, ts.length < bound → SameBut R allowed (p ts) (q ts)

namespace Agree

variable {bound : Nat} {p q : Rule} {p' q' : Rule F}

theorem mono {less : Nat} (h : Agree R allowed bound p p') (hle : less ≤ bound) : Agree R allowed less p p' :=
  ⟨h.keeps, fun _ hts => h.outcome (Nat.lt_of_lt_of_le hts hle)⟩

/-- What a rule leaves of a short input is short. -/
theorem length_lt (hp : Agree R allowed bound p p') {ts rest : List Token} {f : List Tree}
    (hts : ts.length < bound) (h : p ts = .ok (f, rest)) : rest.length < bound := by
  rw [← hp.keeps h, List.length_append] at hts
  omega

section

variable [Append F] [Yield F] (hR : Yield.Respects R)
include hR

theorem run {split : List Token → Except Fault (List Token × List Token)} (hkeeps : Keeps (run split)) :
    Agree R allowed bound (Rule.run split) (Rule.run split) where
  keeps := hkeeps
  outcome ts _ := by
    unfold Rule.run
    cases split ts with
    | error e => exact .error e
    | ok cut => exact .ok (hR.tokens cut.1) cut.2

theorem seq (hp : Agree R allowed bound p p') (hq : Agree R allowed bound q q') :
    Agree R allowed bound (p ++ q) (p' ++ q') where
  keeps := hp.keeps.seq hq.keeps
  outcome _ hts := (hp.outcome hts).andThen fun _ _ _ hok hf =>
    (hq.outcome (hp.length_lt hts hok)).andThen fun _ _ _ _ hg => .ok (hR.append hf hg) _

/-- **Behind a rule that reads a token, inputs may be longer by one.** -/
theorem behind {wide : Nat} (hp : Agree R allowed wide p p') (hreads : Consumes p)
    (hq : Agree R allowed bound q q') (hwide : wide ≤ bound + 1) (hbound : 0 < bound) :
    Agree R allowed wide (p ++ q) (p' ++ q') where
  keeps := hp.keeps.seq hq.keeps
  outcome ts hts := (hp.outcome hts).andThen fun f _ mid hok hf => by
    refine (hq.outcome ?_).andThen fun _ _ _ _ hg => .ok (hR.append hf hg) _
    by_cases hne : ts = []
    · subst hne
      rw [(List.append_eq_nil_iff.mp (hp.keeps hok)).2]
      exact hbound
    · have hlt := hreads hne hok
      omega

theorem node (hp : Agree R allowed bound p p') (kind : NodeKind) :
    Agree R allowed bound (node kind p) (node kind p') where
  keeps := hp.keeps.node kind
  outcome _ hts := (hp.outcome hts).andThen fun _ _ _ _ hf => .ok (hR.node kind hf) _

theorem closing {first : NodeKind} {ask : List Token → NodeKind × Rule}
    {ask' : List Token → NodeKind × Rule F} (hp : Agree R allowed bound p p')
    (hkind : ∀ ts, (ask ts).1 = (ask' ts).1) (hq : ∀ ts, Agree R allowed bound (ask ts).2 (ask' ts).2) :
    Agree R allowed bound (closing first p ask) (closing first p' ask') where
  keeps := hp.keeps.closing fun ts => (hq ts).keeps
  outcome ts hts := (hp.outcome hts).andThen fun f _ mid hok hf => by
    rw [← hkind]
    exact ((hq mid).outcome (hp.length_lt hts hok)).andThen fun _ _ _ _ hg => .ok (hR.closing first _ hf hg) _

theorem many (hp : Agree R allowed bound p p') (ask : Lookahead) :
    Agree R allowed bound (many ask p) (many ask p') where
  keeps := hp.keeps.many ask
  outcome ts hts := by
    induction hn : ts.length using Nat.strongRecOn generalizing ts with
    | ind n ih =>
      rw [Rule.many, Rule.many]
      cases ask ts with
      | false => exact .ok (hR.tokens []) ts
      | true =>
        refine (hp.outcome hts).andThen fun f _ mid hok hf => ?_
        by_cases hlt : mid.length < ts.length
        · rw [if_pos hlt, if_pos hlt]
          exact (ih mid.length (hn ▸ hlt) mid (Nat.lt_trans hlt hts) rfl).andThen fun _ _ _ _ hg =>
            .ok (hR.append hf hg) _
        · rw [if_neg hlt, if_neg hlt]
          exact .ok hf mid

/-- The same node is asked for, with rules that agree. -/
def Forms (R : List Tree → F → Prop) (allowed : Fault → Prop) (bound : Nat)
    (ask : Form) (ask' : Form F) : Prop :=
  ∀ ts, (ask ts = none ∧ ask' ts = none) ∨
    ∃ kind p p', ask ts = some (kind, p) ∧ ask' ts = some (kind, p') ∧ Agree R allowed bound p p'

theorem Forms.wrappings {ask : Form} {ask' : Form F}
    (hask : Forms R allowed bound ask ask') {k : NodeKind} {cs : List Tree} {g : F} (hf : R [.node k cs] g)
    {ts : List Token} (hts : ts.length < bound) :
    SameBut R allowed (wrappings ask [.node k cs] ts) (wrappings ask' g ts) := by
  induction hn : ts.length using Nat.strongRecOn generalizing k cs g ts with
  | ind n ih =>
    rw [Rule.wrappings, Rule.wrappings]
    rcases hask ts with ⟨hnone, hnone'⟩ | ⟨kind, p, p', hsome, hsome', hp⟩
    · rw [hnone, hnone']
      exact .ok hf ts
    · rw [hsome, hsome']
      refine (hp.outcome hts).andThen fun f' _ mid hok hf' => ?_
      have hwrapped := hR.wrap kind hf hf'
      by_cases hlt : mid.length < ts.length
      · rw [if_pos hlt, if_pos hlt]
        exact ih mid.length (hn ▸ hlt) hwrapped (Nat.lt_trans hlt hts) rfl
      · rw [if_neg hlt, if_neg hlt]
        exact .ok hwrapped mid

theorem wrapping {ask : Form} {ask' : Form F}
    (hp : Agree R allowed bound p p') (hnode : MakesNode p) (hask : Forms R allowed bound ask ask') :
    Agree R allowed bound (wrapping p ask) (wrapping p' ask') where
  keeps := by
    refine hp.keeps.wrapping fun {ts kind q} hq => ?_
    rcases hask ts with ⟨hnone, -⟩ | ⟨kind', q', q'', hsome, -, hagree⟩
    · rw [hnone] at hq
      cases hq
    · rw [hsome] at hq
      cases hq
      exact hagree.keeps
  outcome ts hts := (hp.outcome hts).andThen fun f _ mid hok hf => by
    obtain ⟨k, cs, rfl⟩ := hnode hok
    exact Forms.wrappings hR hask hf (hp.length_lt hts hok)

theorem chain (hp : Agree R allowed bound p p') (kind : NodeKind) (link : String) :
    Agree R allowed bound (chain kind p link) (chain kind p' link) where
  keeps := hp.keeps.chain kind link
  outcome ts hts := by
    induction hn : ts.length using Nat.strongRecOn generalizing ts with
    | ind n ih =>
      rw [Rule.chain, Rule.chain]
      refine (hp.outcome hts).andThen fun f _ mid hok hf => ?_
      by_cases hlink : sees link mid = true ∧ (mid.drop 1).length < ts.length
      · rw [if_pos hlink, if_pos hlink]
        refine (ih _ (hn ▸ hlink.2) (mid.drop 1) (Nat.lt_trans hlink.2 hts) rfl).andThen fun _ _ _ _ hg => ?_
        exact .ok (hR.append (hR.node kind (hR.append hf (hR.tokens (mid.take 1)))) hg) _
      · rw [if_neg hlink, if_neg hlink]
        exact .ok (hR.node kind hf) mid

/-! ## Levels of the grammar -/

variable {type item : Rule} {type' item' : Rule F} (htype : Agree R allowed bound type type')
  (hitem : Agree R allowed bound item item')
include htype hitem

/-- **Rules that agree on short inputs are called by rules that do.** If something is read before the
calls, then these agree on inputs that are longer by one. -/
theorem read (g : Scheme) {n wide : Nat} (hg : g.Bounded n)
    (hwide : wide ≤ bound ∨ (wide ≤ bound + 1 ∧ 0 < bound) ∧ g.Late) :
    Agree R allowed wide (g.read type item) (g.read type' item') := by
  induction g generalizing n wide with
  | plain split => exact run hR hg
  | type => exact htype.mono (hwide.resolve_right And.right)
  | item => exact hitem.mono (hwide.resolve_right And.right)
  | seq g h ihg ihh =>
    rcases hwide with hle | ⟨hwide, hlate, hnext | hreads⟩
    · exact seq hR (ihg hg.1 (.inl hle)) (ihh hg.2 (.inl hle))
    · exact seq hR (ihg hg.1 (.inr ⟨hwide, hlate⟩)) (ihh hg.2 (.inr ⟨hwide, hnext⟩))
    · exact behind hR (ihg hg.1 (.inr ⟨hwide, hlate⟩)) (hreads _ _)
        (ihh hg.2 (.inl (Nat.le_refl _))) hwide.1 hwide.2
  | node kind g ih =>
    rw [Scheme.Bounded] at hg
    split at hg <;> exact node hR (ih hg.2 hwide) kind
  | closing first g kind next ihg ihnext =>
    have hask := fun ts => ihnext ts (hg.2.2 ts) (hwide.imp_right fun h => ⟨h.1, h.2.2 ts⟩)
    exact closing hR (ihg hg.2.1 (hwide.imp_right fun h => ⟨h.1, h.2.1⟩)) (fun _ => rfl) hask
  | many ask g ih => exact many hR (ih hg hwide) ask
  | wrapping g kind next ihg ihnext =>
    refine wrapping hR (ihg hg.2.1 (hwide.imp_right fun h => ⟨h.1, h.2.1⟩)) (hg.1.2 type item) fun ts => ?_
    cases hkind : kind ts with
    | none => exact .inl ⟨rfl, rfl⟩
    | some k =>
      have hask := ihnext ts (hg.2.2 ts k hkind).2 (hwide.imp_right fun h => ⟨h.1, h.2.2 ts k hkind⟩)
      exact .inr ⟨_, _, _, rfl, rfl, hask⟩
  | chain kind g link ih => exact chain hR (ih hg.2.2 hwide) kind link
  | given choose ih =>
    have hchoice := fun ts => ih ts (hg ts) (hwide.imp_right fun h => ⟨h.1, h.2 ts⟩)
    exact ⟨fun ts _ _ hok => (hchoice ts).keeps hok, fun ts hts => (hchoice ts).outcome hts⟩

theorem schematic {s : Calling} {n : Nat} {l : Bool} (hs : Schematic n l s) :
    Agree R allowed bound (s type item) (s type' item') := by
  obtain ⟨g, hg, -, hread⟩ := hs
  have hagree := read hR htype hitem g hg (.inl (Nat.le_refl _))
  rwa [hread, hread] at hagree

theorem schematic_late {s : Calling} {n : Nat} (hs : Schematic n true s) (hbound : 0 < bound) :
    Agree R allowed (bound + 1) (s type item) (s type' item') := by
  obtain ⟨g, hg, hlate, hread⟩ := hs
  have hagree := read hR htype hitem g hg (.inr ⟨⟨Nat.le_refl _, hbound⟩, hlate rfl⟩)
  rwa [hread, hread] at hagree

end

/-- **The trees of a type are related to whatever else the rule makes of it.** -/
theorem type [Append F] [Yield F] (hR : Yield.Respects R) (n : Nat) :
    Agree R allowed bound (type n) (type n) := by
  induction n with
  | zero => exact run hR keeps_tooDeep
  | succ n ih =>
    exact schematic hR ih ih (s := fun type _ => typeBody type) (Schematic.typeBody (n := 0) (l := true))

/-- So are those of an item, by one level at a time. -/
theorem item [Append F] [Yield F] (hR : Yield.Respects R) (n : Nat) :
    Agree R allowed bound (item n) (item n) := by
  induction n with
  | zero => exact run hR keeps_tooDeep
  | succ n ih => exact schematic hR (type hR n) ih (Schematic.itemBody (n := 0) (l := true))

end Agree

end Rule

end SwiftOutline
