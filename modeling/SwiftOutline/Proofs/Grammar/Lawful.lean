import SwiftOutline.Grammar.Parse
import SwiftOutline.Proofs.Tree.Relabel

/-!
# `Lawful` — what every rule of the grammar does to its tokens

Two laws hold of every rule, whatever it reads:

* **it keeps its tokens** — the trees of a successful rule hold exactly the tokens between its input
  and its rest, in order and each once;
* **it sees tokens only through its lookaheads** — a change of tokens that leaves class, text, line
  breaks and adjacency alone changes the outcome in the same places and nowhere else.

`Rule.Lawful` states both. There is one lemma for each way of putting rules together, and with them the
grammar is lawful rule by rule (`LawfulRules`). Each way of repeating a rule comes with an induction
over its rounds, which later statements on repetitions use as well.

`Rule.Commutes` is the second law for one change and one input. A change of the gaps (`Token.Respaces`)
does not commute with a rule on every input, so the lemmas on ways of putting rules together are stated
for any sort of changes to certain inputs (`Changes`, `Rule.LawfulFor`).
-/

namespace SwiftOutline

open SwiftOutline.Tree List

/-! ## Changes that no rule can see -/

/-- A change of tokens that leaves alone all that a rule may ask of a token. -/
structure Token.Unseen (g : Token → Token) : Prop where
  kind : ∀ t, (g t).kind = t.kind
  text : ∀ t, (g t).text = t.text
  newlineBefore : ∀ t, (g t).newlineBefore = t.newlineBefore
  isAdjacent : ∀ t, (g t).isAdjacent = t.isAdjacent

/-- A change of tokens that leaves them alone but for the gaps in front of them. -/
structure Token.Respaces (g : Token → Token) : Prop where
  kind : ∀ t, (g t).kind = t.kind
  text : ∀ t, (g t).text = t.text
  newlineBefore : ∀ t, (g t).newlineBefore = t.newlineBefore

variable {g : Token → Token}

/-- A change that keeps adjacency too is a change of gaps. -/
theorem Token.Unseen.respaces (hg : Unseen g) : Respaces g where
  kind := hg.kind
  text := hg.text
  newlineBefore := hg.newlineBefore

theorem Token.Respaces.isWord (hg : Respaces g) (t : Token) : (g t).isWord = t.isWord := by
  unfold Token.isWord
  rw [hg.kind t]

/-- A sort of changes to the tokens ahead. -/
abbrev ChangeSort := (Token → Token) → List Token → Prop

/-- The changes leave all but the gaps alone, and are of this sort still when some of the
    tokens have been read. -/
class Changes (K : ChangeSort) : Prop where
  respaces : ∀ {g ts}, K g ts → Token.Respaces g
  rest : ∀ {g us ts}, K g (us ++ ts) → K g ts

/-- A change that no rule can see, whatever the tokens are. -/
def Token.UnseenIn (g : Token → Token) (_ts : List Token) : Prop := Unseen g

instance changes_unseenIn : Changes Token.UnseenIn where
  respaces hg := Token.Unseen.respaces hg
  rest hg := hg

/-- The fault with the token where it stopped changed by `g`. -/
def Fault.relabel (g : Token → Token) : Fault → Fault
  | .expected what found => .expected what (found.map g)
  | .tooDeep found => .tooDeep (found.map g)

namespace Rule

/-- The outcome of a rule with every token changed by `g`. -/
def relabelOutcome (g : Token → Token) :
    Except Fault (List Tree × List Token) → Except Fault (List Tree × List Token)
  | .error e => .error (e.relabel g)
  | .ok (f, rest) => .ok (f.map (relabel g), rest.map g)

@[simp] theorem relabelOutcome_ok (g : Token → Token) (f : List Tree) (rest : List Token) :
    relabelOutcome g (.ok (f, rest)) = .ok (f.map (relabel g), rest.map g) := rfl

@[simp] theorem relabelOutcome_error (g : Token → Token) (e : Fault) :
    relabelOutcome g (.error e) = .error (e.relabel g) := rfl

section

variable {F G : Type} {x : Except Fault (F × List Token)} {next :
  F → List Token → Except Fault (G × List Token)}

@[simp] theorem andThen_ok (f : F) (rest : List Token) : andThen (.ok (f, rest)) next = next f rest := rfl

@[simp] theorem andThen_error (e : Fault) : andThen (.error e) next = .error e := rfl

/-- What goes on with success has read something. -/
theorem andThen_eq_ok {out : G × List Token} (h : andThen x next = .ok out) :
    ∃ f rest, x = .ok (f, rest) ∧ next f rest = .ok out := by
  cases x with
  | error e => cases h
  | ok read => exact ⟨read.1, read.2, rfl, h⟩

end

/-- What goes on from a changed outcome gives the changed outcome, if each part does. -/
theorem relabelOutcome_andThen {g : Token → Token} {x x' : Except Fault (List Tree × List Token)}
    {next next' : List Tree → List Token → Except Fault (List Tree × List Token)}
    (hx : x' = relabelOutcome g x)
    (hnext : ∀ f rest, x = .ok (f, rest) → next' (f.map (relabel g)) (rest.map g) =
      relabelOutcome g (next f rest)) :
    andThen x' next' = relabelOutcome g (andThen x next) := by
  subst hx
  cases x with
  | error e => rfl
  | ok out => exact hnext out.1 out.2 rfl

/-- The trees that the rule reads hold its tokens. -/
def Keeps (p : Rule) : Prop :=
  ∀ ⦃ts : List Token⦄ ⦃f : List Tree⦄ ⦃rest : List Token⦄,
    p ts = .ok (f, rest) → forestTokens f ++ rest = ts

/-- On these tokens the rule commutes with the change: the changed tokens give the changed outcome. -/
def Commutes (g : Token → Token) (p : Rule) (ts : List Token) : Prop :=
  p (ts.map g) = relabelOutcome g (p ts)

/-- The laws of a rule for a sort of changes. Its trees hold the tokens that it read, and it commutes with the
    changes. -/
structure LawfulFor (K : ChangeSort) (p : Rule) : Prop where
  keeps : Keeps p
  commutes : ∀ {g ts}, K g ts → Commutes g p ts

/-- **The laws of a rule.** Its trees hold the tokens that it read, and it commutes with every change of
    tokens that no rule can see. -/
abbrev Lawful (p : Rule) : Prop := LawfulFor Token.UnseenIn p

/-- A lawful rule cannot tell an unseen change. -/
theorem LawfulFor.natural {p : Rule} (h : Lawful p) {g : Token → Token} (hg : Token.Unseen g)
    (ts : List Token) : p (ts.map g) = relabelOutcome g (p ts) :=
  h.commutes hg

/-- A change of the input is one of the rest (`Changes.rest`). -/
theorem Keeps.change {K : ChangeSort} [Changes K] {p : Rule} (hp : Keeps p) {g : Token → Token}
    {ts mid : List Token} {f : List Tree} (hg : K g ts) (h : p ts = .ok (f, mid)) : K g mid :=
  Changes.rest (hp h ▸ hg)

end Rule

/-- A question that cannot see a sort of changes. -/
def Lookahead.NaturalFor (K : ChangeSort) (ask : Lookahead) : Prop :=
  ∀ ⦃g ts⦄, K g ts → ask (ts.map g) = ask ts

/-- A question that cannot see the changes that no rule can see. -/
abbrev Lookahead.Natural (ask : Lookahead) : Prop := ask.NaturalFor Token.UnseenIn

/-! ## Lookaheads -/

/-- A question about the next token alone, and about nothing that `g` changes. -/
theorem any_head?_map {ask : Token → Bool} (hask : ∀ t, ask (g t) = ask t)
    (ts : List Token) : (ts.map g).head?.any ask = ts.head?.any ask := by
  cases ts with
  | nil => rfl
  | cons t ts => exact hask t

section

variable {g : Token → Token} (hg : Token.Respaces g)
include hg

/-- The texts ahead stay (`Respaces.text`). -/
theorem textAt_map (n : Nat) (ts : List Token) : textAt n (ts.map g) = textAt n ts := by
  unfold textAt
  rw [List.getElem?_map]
  cases ts[n]? with
  | none => rfl
  | some t => simp only [Option.map_some, Option.getD_some, hg.text t]

/-- Words ahead stay words (`Respaces.isWord`). -/
theorem isWordAt_map (n : Nat) (ts : List Token) : isWordAt n (ts.map g) = isWordAt n ts := by
  unfold isWordAt
  rw [List.getElem?_map]
  cases ts[n]? with
  | none => rfl
  | some t => simp only [Option.map_some, Option.any_some, hg.isWord t]

theorem sees_map (text : String) (ts : List Token) : sees text (ts.map g) = sees text ts :=
  any_head?_map (fun t => by rw [hg.text t]) ts

theorem seesKind_map (kind : TokenKind) (ts : List Token) :
    seesKind kind (ts.map g) = seesKind kind ts :=
  any_head?_map (fun t => by rw [hg.kind t]) ts

theorem seesWord_map (ts : List Token) : seesWord (ts.map g) = seesWord ts := isWordAt_map hg 0 ts

theorem seesNewline_map (ts : List Token) : seesNewline (ts.map g) = seesNewline ts :=
  any_head?_map (fun t => hg.newlineBefore t) ts

theorem seesClauseEnd_map (ts : List Token) : seesClauseEnd (ts.map g) = seesClauseEnd ts := by
  unfold seesClauseEnd
  rw [sees_map hg, sees_map hg, sees_map hg]

theorem isOpener_respaced (t : Token) : isOpener (g t) = isOpener t := by
  unfold isOpener
  rw [hg.kind t, hg.text t]

theorem isCloser_respaced (t : Token) : isCloser (g t) = isCloser t := by
  unfold isCloser
  rw [hg.kind t, hg.text t]

/-- Brackets are counted by kind and text. -/
theorem depthAfter_respaced (depth : Nat) (t : Token) : depthAfter depth (g t) = depthAfter depth t := by
  unfold depthAfter
  rw [isOpener_respaced hg, isCloser_respaced hg]

end

/-- Only this question asks for adjacency, which `Unseen` keeps. -/
theorem seesAdjacent_map (hg : Token.Unseen g) (text : String) (ts : List Token) :
    seesAdjacent text (ts.map g) = seesAdjacent text ts :=
  any_head?_map (fun t => by rw [hg.text t, hg.isAdjacent t]) ts

namespace Lookahead

theorem natural_seesAdjacent (text : String) : Natural (seesAdjacent text) :=
  fun _ ts hg => seesAdjacent_map hg text ts

theorem natural_seesNewline : Natural seesNewline :=
  fun _ ts hg => seesNewline_map (Changes.respaces hg) ts

theorem natural_seesClauseEnd : Natural seesClauseEnd :=
  fun _ ts hg => seesClauseEnd_map (Changes.respaces hg) ts

section

variable {K : ChangeSort}

variable {a : Lookahead}

/-- Both answers stay, so the conjunction does. -/
theorem NaturalFor.and {b : Lookahead} (ha : NaturalFor K a) (hb : NaturalFor K b) :
    NaturalFor K fun ts => a ts && b ts := by
  intro g ts hg
  simp only [ha hg, hb hg]

theorem NaturalFor.or {b : Lookahead} (ha : NaturalFor K a) (hb : NaturalFor K b) :
    NaturalFor K fun ts => a ts || b ts := by
  intro g ts hg
  simp only [ha hg, hb hg]

theorem NaturalFor.not (ha : NaturalFor K a) : NaturalFor K fun ts => !a ts := by
  intro g ts hg
  simp only [ha hg]

theorem natural_seesEnd : NaturalFor K seesEnd := fun _ ts _ => by cases ts <;> rfl

variable [Changes K]

/-- By `sees_map`, as every change is one of gaps. -/
theorem natural_sees (text : String) : NaturalFor K (sees text) :=
  fun _ ts hg => sees_map (Changes.respaces hg) text ts

theorem natural_seesKind (kind : TokenKind) : NaturalFor K (seesKind kind) :=
  fun _ ts hg => seesKind_map (Changes.respaces hg) kind ts

theorem natural_isWordAt (n : Nat) : NaturalFor K (isWordAt n) :=
  fun _ ts hg => isWordAt_map (Changes.respaces hg) n ts

theorem natural_seesWord : NaturalFor K seesWord := natural_isWordAt 0

/-- A question about the texts of the tokens ahead. -/
theorem natural_textAt (n : Nat) (ask : String → Bool) : NaturalFor K fun ts => ask (textAt n ts) := by
  intro g ts hg
  simp only [textAt_map (Changes.respaces hg) n ts]

end

end Lookahead

/-! ## Putting rules together -/

namespace Rule

variable {K : ChangeSort} {g : Token → Token} {p q : Rule} {ask : Lookahead}
  {ts rest : List Token} {f : List Tree}

variable {split : List Token → Except Fault (List Token × List Token)}

/-- What a run reads is what `split` takes off the input. -/
theorem run_eq_ok (h : run split ts = .ok (f, rest)) :
    ∃ front, split ts = .ok (front, rest) ∧ f = front.map .token := by
  obtain ⟨front, rest', hsplit, heq⟩ := andThen_eq_ok h
  cases heq
  exact ⟨front, hsplit, rfl⟩

theorem run_ok {front : List Token} (h : split ts = .ok (front, rest)) :
    run split ts = .ok (front.map Tree.token, rest) := by
  rw [run, h]
  rfl

/-- A run of tokens holds them, if the input is cut in two. -/
theorem keeps_run (h : ∀ ⦃ts front rest⦄, split ts = .ok (front, rest) → front ++ rest = ts) :
    Keeps (run split) := by
  intro ts f rest hok
  obtain ⟨front, hsplit, rfl⟩ := run_eq_ok hok
  rw [forestTokens_map_token, h hsplit]

/-- A cut of the input with every token changed by `g`. -/
def relabelSplit (g : Token → Token) :
    Except Fault (List Token × List Token) → Except Fault (List Token × List Token)
  | .error e => .error (e.relabel g)
  | .ok (front, rest) => .ok (front.map g, rest.map g)

/-- A run of tokens commutes with the change, if it is cut at the same place. -/
theorem commutes_run (h : split (ts.map g) = relabelSplit g (split ts)) : Commutes g (run split) ts := by
  unfold Commutes run
  rw [h]
  cases split ts with
  | error e => rfl
  | ok cut =>
    obtain ⟨front, rest⟩ := cut
    simp only [relabelSplit, andThen_ok, relabelOutcome_ok, Yield.tokens, map_map]
    congr 2

/-- A run is lawful if `split` is (`keeps_run`, `commutes_run`). -/
theorem lawful_run (hkeeps : ∀ ⦃ts front rest⦄, split ts = .ok (front, rest) → front ++ rest = ts)
    (hmap : ∀ ⦃g ts⦄, K g ts → split (ts.map g) = relabelSplit g (split ts)) : LawfulFor K (run split) where
  keeps := keeps_run hkeeps
  commutes hg := commutes_run (hmap hg)

theorem nothing_eq_ok (h : nothing ts = .ok (f, rest)) : f = [] ∧ rest = ts := by
  cases h
  exact ⟨rfl, rfl⟩

theorem keeps_nothing : Keeps nothing := by
  refine keeps_run fun ts front rest h => ?_
  cases h
  rfl

theorem lawful_nothing : LawfulFor K nothing where
  keeps := keeps_nothing
  commutes _ := rfl

theorem keeps_fail (what : String) : Keeps (fail what) := keeps_run fun _ _ _ h => nomatch h

theorem commutes_fail (what : String) : Commutes g (fail what) ts :=
  commutes_run (by rw [relabelSplit, Fault.relabel, List.head?_map])

theorem lawfulFor_fail (what : String) : LawfulFor K (fail what) where
  keeps := keeps_fail what
  commutes _ := commutes_fail what

theorem keeps_tooDeep : Keeps tooDeep := keeps_run fun _ _ _ h => nomatch h

theorem lawfulFor_tooDeep : LawfulFor K tooDeep where
  keeps := keeps_tooDeep
  commutes _ := commutes_run (by rw [relabelSplit, Fault.relabel, List.head?_map])

/-- The rule reads `n` tokens, or all there are. -/
theorem bumps_eq_ok {n : Nat} (h : bumps n ts = .ok (f, rest)) :
    f = (ts.take n).map .token ∧ rest = ts.drop n := by
  cases h
  exact ⟨rfl, rfl⟩

theorem bumps_ok (n : Nat) (ts : List Token) : bumps n ts = .ok ((ts.take n).map Tree.token, ts.drop n) := rfl

/-- Taking and dropping make up the input. -/
theorem keeps_bumps (n : Nat) : Keeps (bumps n) := by
  refine keeps_run fun ts front rest h => ?_
  cases h
  exact take_append_drop n ts

theorem keeps_bump : Keeps bump := keeps_bumps 1

/-- Reading a number of tokens commutes with every change of them. -/
theorem bumps_map (g : Token → Token) (n : Nat) (ts : List Token) :
    bumps n (ts.map g) = relabelOutcome g (bumps n ts) :=
  commutes_run (by rw [relabelSplit, map_take, map_drop])

theorem lawful_bumps (n : Nat) : LawfulFor K (bumps n) where
  keeps := keeps_bumps n
  commutes {g ts} _ := bumps_map g n ts

theorem lawful_bump : LawfulFor K bump := lawful_bumps 1

/-- What a successful sequence is made of. -/
theorem seq_eq_ok (h : (p ++ q) ts = .ok (f, rest)) :
    ∃ f₁ mid f₂, p ts = .ok (f₁, mid) ∧ q mid = .ok (f₂, rest) ∧ f = f₁ ++ f₂ := by
  obtain ⟨f₁, mid, hp, h⟩ := andThen_eq_ok h
  obtain ⟨f₂, rest', hq, h⟩ := andThen_eq_ok h
  cases h
  exact ⟨f₁, mid, f₂, hp, hq, rfl⟩

variable {mid : List Token} {e : Fault} {kind : NodeKind} {f' : List Tree}

/-- Two rules that succeed one after the other. -/
theorem seq_ok {f₁ f₂ : List Tree}
    (hp : p ts = .ok (f₁, mid)) (hq : q mid = .ok (f₂, rest)) : (p ++ q) ts = .ok (f₁ ++ f₂, rest) := by
  change seq p q ts = _
  simp only [seq, hp, hq, andThen_ok]

theorem seq_error (hp : p ts = .error e) : (p ++ q) ts = .error e := by
  change seq p q ts = _
  rw [seq, hp, andThen_error]

/-- The fault of the second rule is that of both. -/
theorem seq_error_right (hp : p ts = .ok (f, mid)) (hq : q mid = .error e) : (p ++ q) ts = .error e := by
  change seq p q ts = _
  simp only [seq, hp, hq, andThen_ok, andThen_error]

/-- By `seq_eq_ok`: the first rest is what the second rule reads. -/
theorem Keeps.seq (hp : Keeps p) (hq : Keeps q) : Keeps (p ++ q) := by
  intro ts f rest h
  obtain ⟨f₁, mid, f₂, h₁, h₂, rfl⟩ := seq_eq_ok h
  rw [forestTokens_append, append_assoc, hq h₂, hp h₁]

/-- The second rule has to commute only on what the first one leaves. -/
theorem Commutes.seq (hp : Commutes g p ts)
    (hq : ∀ ⦃f mid⦄, p ts = .ok (f, mid) → Commutes g q mid) : Commutes g (p ++ q) ts := by
  refine relabelOutcome_andThen hp fun f mid hok => relabelOutcome_andThen (hq hok) fun f' rest _ => ?_
  rw [relabelOutcome_ok, map_append]

/-- The change reaches the second rule (`Keeps.change`). -/
theorem LawfulFor.seq [Changes K] (hp : LawfulFor K p) (hq : LawfulFor K q) : LawfulFor K (p ++ q) where
  keeps := hp.keeps.seq hq.keeps
  commutes hg := Commutes.seq (hp.commutes hg) fun _ _ h => hq.commutes (hp.keeps.change hg h)

theorem Keeps.either (hp : Keeps p) (hq : Keeps q) (ask : Lookahead) : Keeps (either ask p q) := by
  intro ts f rest h
  unfold Rule.either at h
  split at h
  · exact hp h
  · exact hq h

/-- Only the branch that is taken has to commute. -/
theorem Commutes.either (hask : ask (ts.map g) = ask ts)
    (hp : ask ts = true → Commutes g p ts) (hq : ask ts = false → Commutes g q ts) :
    Commutes g (either ask p q) ts := by
  unfold Commutes Rule.either
  rw [hask]
  split
  · next h => exact hp h
  · next h => exact hq (Bool.eq_false_iff.mpr h)

theorem LawfulFor.either (hask : ask.NaturalFor K) (hp : LawfulFor K p)
    (hq : LawfulFor K q) : LawfulFor K (either ask p q) where
  keeps := hp.keeps.either hq.keeps ask
  commutes hg := Commutes.either (hask hg) (fun _ => hp.commutes hg) fun _ => hq.commutes hg

/-- By `LawfulFor.either`, with `nothing` as the other branch. -/
theorem LawfulFor.optional (hask : ask.NaturalFor K) (hp : LawfulFor K p) : LawfulFor K (optional ask p) :=
  LawfulFor.either hask hp lawful_nothing

/-- By `LawfulFor.either`, with a fault as the other branch. -/
theorem LawfulFor.require (hask : ask.NaturalFor K) (what : String)
    (hp : LawfulFor K p) : LawfulFor K (require ask what p) :=
  LawfulFor.either hask hp (lawfulFor_fail what)

theorem lawful_expect [Changes K] (text : String) : LawfulFor K (expect text) :=
  LawfulFor.require (Lookahead.natural_sees text) _ lawful_bump

theorem lawful_expectWord [Changes K] (what : String) : LawfulFor K (expectWord what) :=
  LawfulFor.require Lookahead.natural_seesWord what lawful_bump

theorem keeps_expect (text : String) : Keeps (expect text) := keeps_bump.either (keeps_fail _) _

theorem keeps_expectWord (what : String) : Keeps (expectWord what) := keeps_bump.either (keeps_fail _) _

/-- A rule that must read something has read something. -/
theorem nonempty_eq_ok {what : String}
    (h : nonempty what p ts = .ok (f, rest)) : p ts = .ok (f, rest) ∧ rest.length < ts.length := by
  obtain ⟨f', rest', hp, h⟩ := andThen_eq_ok h
  split at h
  · next hlt =>
    cases h
    exact ⟨hp, hlt⟩
  · cases h

theorem nonempty_ok (hp : p ts = .ok (f, rest)) (hlt : rest.length < ts.length) (what : String) :
    nonempty what p ts = .ok (f, rest) := by
  rw [nonempty, hp, andThen_ok, if_pos hlt]

theorem Keeps.nonempty (hp : Keeps p) (what : String) : Keeps (nonempty what p) :=
  fun _ _ _ h => hp (nonempty_eq_ok h).1

/-- The change keeps lengths, so the test is the same. -/
theorem Commutes.nonempty (what : String) (hp : Commutes g p ts) : Commutes g (nonempty what p) ts := by
  refine relabelOutcome_andThen hp fun f rest _ => ?_
  rw [length_map, length_map]
  split
  · rfl
  · exact commutes_fail what

theorem LawfulFor.nonempty (what : String) (hp : LawfulFor K p) : LawfulFor K (nonempty what p) where
  keeps := hp.keeps.nonempty what
  commutes hg := Commutes.nonempty what (hp.commutes hg)

/-- A node holds the trees that its rule reads. -/
theorem node_eq_ok (h : node kind p ts = .ok (f, rest)) :
    ∃ cs, p ts = .ok (cs, rest) ∧ f = [.node kind cs] := by
  obtain ⟨cs, rest', hp, h⟩ := andThen_eq_ok h
  cases h
  exact ⟨cs, hp, rfl⟩

theorem node_ok {cs : List Tree} (h : p ts = .ok (cs, rest)) :
    node kind p ts = .ok ([.node kind cs], rest) := by
  rw [node, h]
  rfl

theorem Keeps.node (hp : Keeps p) (kind : NodeKind) : Keeps (node kind p) := by
  intro ts f rest h
  obtain ⟨cs, hcs, rfl⟩ := node_eq_ok h
  rw [forestTokens_singleton, tokens_node, hp hcs]

/-- The change goes through the node (`relabel_node`). -/
theorem Commutes.node (kind : NodeKind) (hp : Commutes g p ts) : Commutes g (node kind p) ts := by
  refine relabelOutcome_andThen hp fun cs rest _ => ?_
  simp only [relabelOutcome_ok, Yield.node, List.map_cons, map_nil, relabel_node]

theorem LawfulFor.node (kind : NodeKind) (hp : LawfulFor K p) : LawfulFor K (node kind p) where
  keeps := hp.keeps.node kind
  commutes hg := Commutes.node kind (hp.commutes hg)

variable {first : NodeKind}

/-- The kind and the second rule come from what is left by the first. -/
theorem closing_eq_ok {ask : List Token → NodeKind × Rule} (h : closing first p ask ts = .ok (f, rest)) :
    ∃ f₁ mid f₂, p ts = .ok (f₁, mid) ∧ (ask mid).2 mid = .ok (f₂, rest) ∧
      f = [.node (ask mid).1 (f₁ ++ f₂)] := by
  obtain ⟨f₁, mid, hp, h⟩ := andThen_eq_ok h
  obtain ⟨f₂, rest', hq, h⟩ := andThen_eq_ok h
  cases h
  exact ⟨f₁, mid, f₂, hp, hq, rfl⟩

theorem closing_ok {ask : List Token → NodeKind × Rule}
    {f₁ f₂ : List Tree} (hp : p ts = .ok (f₁, mid)) (hq : (ask mid).2 mid = .ok (f₂, rest)) :
    closing first p ask ts = .ok ([.node (ask mid).1 (f₁ ++ f₂)], rest) := by
  simp only [closing, hp, hq, andThen_ok, Yield.closing]

/-- As for `Keeps.seq`. -/
theorem Keeps.closing {ask : List Token → NodeKind × Rule} (hp : Keeps p)
    (hq : ∀ ts, Keeps (ask ts).2) : Keeps (closing first p ask) := by
  intro ts f rest h
  obtain ⟨f₁, mid, f₂, h₁, h₂, rfl⟩ := closing_eq_ok h
  rw [forestTokens_singleton, tokens_node, forestTokens_append, append_assoc,
    hq mid h₂, hp h₁]

/-- As for `Commutes.seq`, if the question has the same answer. -/
theorem Commutes.closing {ask : List Token → NodeKind × Rule} (hp : Commutes g p ts)
    (hask : ∀ ⦃f mid⦄, p ts = .ok (f, mid) → ask (mid.map g) = ask mid)
    (hq : ∀ ⦃f mid⦄, p ts = .ok (f, mid) → Commutes g (ask mid).2 mid) :
    Commutes g (closing first p ask) ts := by
  refine relabelOutcome_andThen hp fun f mid hok => ?_
  rw [hask hok]
  refine relabelOutcome_andThen (hq hok) fun f' rest _ => ?_
  simp only [relabelOutcome_ok, Yield.closing, map_append, List.map_cons, map_nil, relabel_node]

/-- A choice of node and rule by the tokens ahead that cannot see the changes either. -/
theorem LawfulFor.closing [Changes K] {ask : List Token → NodeKind × Rule} (hp : LawfulFor K p)
    (hask : ∀ ⦃g ts⦄, K g ts → ask (ts.map g) = ask ts) (hq : ∀ ts, LawfulFor K (ask ts).2) :
    LawfulFor K (closing first p ask) where
  keeps := hp.keeps.closing fun ts => (hq ts).keeps
  commutes hg := Commutes.closing (hp.commutes hg) (fun _ _ h => hask (hp.keeps.change hg h))
    fun _ mid h => (hq mid).commutes (hp.keeps.change hg h)

/-! ### Repetition -/

/-- A repetition that is not asked for reads nothing. -/
theorem many_of_not (h : ask ts = false) : many ask p ts = .ok ([], ts) := by
  rw [many, if_neg (by rw [h]; exact Bool.false_ne_true)]
  rfl

theorem many_error (h : ask ts = true) (hp : p ts = .error e) : many ask p ts = .error e := by
  rw [many, if_pos h, hp, andThen_error]

/-- One round and what the repetition reads behind it. -/
theorem many_round (h : ask ts = true) (hp : p ts = .ok (f, rest)) (hlt : rest.length < ts.length) :
    many ask p ts = andThen (many ask p rest) fun g rest' => .ok (f ++ g, rest') := by
  rw [many, if_pos h, hp]
  exact if_pos hlt

theorem many_round_ok (h : ask ts = true) (hp : p ts = .ok (f, mid)) (hlt : mid.length < ts.length)
    (hm : many ask p mid = .ok (f', rest)) : many ask p ts = .ok (f ++ f', rest) := by
  rw [many_round h hp hlt, hm, andThen_ok]

/-- A repetition that is asked for begins with a round. -/
theorem many_eq_ok_of_asked (ha : ask ts = true) (h : many ask p ts = .ok (f, rest))
    (hreads : ∀ ⦃f mid⦄, p ts = .ok (f, mid) → mid.length < ts.length) :
    ∃ f₁ mid f₂, p ts = .ok (f₁, mid) ∧ many ask p mid = .ok (f₂, rest) ∧ f = f₁ ++ f₂ := by
  rw [many, if_pos ha] at h
  obtain ⟨f₁, mid, hp, h⟩ := andThen_eq_ok h
  rw [if_pos (hreads hp)] at h
  obtain ⟨f₂, rest', hm, h⟩ := andThen_eq_ok h
  cases h
  exact ⟨f₁, mid, f₂, hp, hm, rfl⟩

/-- **Induction over the rounds of a repetition.** A repetition that succeeds stops at once, stops after a
    round that reads no token, or reads a round and goes on. -/
theorem many_induction {motive : List Token → List Tree → List Token → Prop}
    (stop : ∀ ts, ask ts = false → motive ts [] ts)
    (last : ∀ ts f rest, ask ts = true → p ts = .ok (f, rest) → ¬ rest.length < ts.length → motive ts f rest)
    (round : ∀ ts f mid f' rest, ask ts = true → p ts = .ok (f, mid) → mid.length < ts.length →
      many ask p mid = .ok (f', rest) → motive mid f' rest → motive ts (f ++ f') rest)
    (h : many ask p ts = .ok (f, rest)) : motive ts f rest := by
  induction hn : ts.length using Nat.strongRecOn generalizing ts f rest with
  | ind n ih =>
    rw [many] at h
    split at h
    · next ha =>
      obtain ⟨f₁, mid, hp, h⟩ := andThen_eq_ok h
      split at h
      · next hlt =>
        obtain ⟨f₂, rest', hm, h⟩ := andThen_eq_ok h
        cases h
        exact round ts f₁ mid f₂ rest ha hp hlt hm (ih mid.length (hn ▸ hlt) hm rfl)
      · next hlt =>
        cases h
        exact last ts f rest ha hp hlt
    · next ha =>
      cases h
      exact stop ts (Bool.eq_false_iff.mpr ha)

/-- By `many_induction`. -/
theorem Keeps.many (hp : Keeps p) (ask : Lookahead) : Keeps (many ask p) := by
  intro ts f rest h
  refine many_induction (motive := fun ts f rest => forestTokens f ++ rest = ts) ?_ ?_ ?_ h
  · intro ts _
    rw [forestTokens_nil, nil_append]
  · intro ts f rest _ hok _
    exact hp hok
  · intro ts f mid f' rest _ hok _ _ ih
    rw [forestTokens_append, append_assoc, ih, hp hok]

variable {P : List Token → Prop}

/-- **A repetition commutes with the change if each round does.** `P` holds of the tokens before each
    round, and a round keeps it. -/
theorem commutes_many (hask : ∀ ts, P ts → ask (ts.map g) = ask ts)
    (hp : ∀ ts, P ts → ask ts = true → Commutes g p ts)
    (hnext : ∀ ⦃ts f mid⦄, P ts → ask ts = true → p ts = .ok (f, mid) → P mid) (hts : P ts) :
    Commutes g (many ask p) ts := by
  unfold Commutes
  induction hn : ts.length using Nat.strongRecOn generalizing ts with
  | ind n ih =>
    rw [many, many, hask ts hts]
    cases ha : ask ts with
    | false => rfl
    | true =>
      refine relabelOutcome_andThen (hp ts hts ha) fun f mid hok => ?_
      rw [length_map, length_map]
      by_cases hlt : mid.length < ts.length
      · rw [if_pos hlt, if_pos hlt]
        refine relabelOutcome_andThen (ih mid.length (hn ▸ hlt) (hnext hts ha hok) rfl) fun f' rest _ => ?_
        rw [relabelOutcome_ok, map_append]
      · rw [if_neg hlt, if_neg hlt]
        rfl

/-- A round of a repetition is read only where it is asked for. -/
theorem lawfulFor_many [Changes K] (hask : ask.NaturalFor K) (hkeeps : Keeps p)
    (hp : ∀ ⦃g ts⦄, K g ts → ask ts = true → Commutes g p ts) : LawfulFor K (many ask p) where
  keeps := hkeeps.many ask
  commutes {g _} hg := commutes_many (P := K g) (fun _ h => hask h) (fun _ h => hp h)
    (fun _ _ _ h _ hok => hkeeps.change h hok) hg

/-- By `lawfulFor_many`: a natural question guards each round. -/
theorem LawfulFor.many [Changes K] (hask : ask.NaturalFor K) (hp : LawfulFor K p) :
    LawfulFor K (many ask p) :=
  lawfulFor_many hask hp.keeps fun _ _ hg _ => hp.commutes hg

/-! ### Nodes put around what was read -/

variable {ask : Form}

/-- **Induction over the rounds of a wrapping.** What was read is left as it is, or it is put into one
    more node, after which the wrapping ends or goes on. -/
theorem wrappings_induction {motive : List Tree → List Token → List Tree → List Token → Prop}
    (stop : ∀ f ts, ask ts = none → motive f ts f ts)
    (last : ∀ f ts kind p g rest, ask ts = some (kind, p) → p ts = .ok (g, rest) →
      ¬ rest.length < ts.length → motive f ts [.node kind (f ++ g)] rest)
    (round : ∀ f ts kind p g mid f' rest, ask ts = some (kind, p) → p ts = .ok (g, mid) →
      mid.length < ts.length → wrappings ask [.node kind (f ++ g)] mid = .ok (f', rest) →
      motive [.node kind (f ++ g)] mid f' rest → motive f ts f' rest)
    (h : wrappings ask f ts = .ok (f', rest)) : motive f ts f' rest := by
  induction hn : ts.length using Nat.strongRecOn generalizing f ts f' rest with
  | ind n ih =>
    rw [wrappings] at h
    split at h
    · next ha =>
      cases h
      exact stop f ts ha
    · next kind p ha =>
      obtain ⟨g, mid, hp, h⟩ := andThen_eq_ok h
      split at h
      · next hlt => exact round f ts kind p g mid f' rest ha hp hlt h (ih _ (hn ▸ hlt) h rfl)
      · next hlt =>
        cases h
        exact last f ts kind p g rest ha hp hlt

/-- The laws of the rules that a wrapping may ask for, and of its questions. -/
structure LawfulForms (K : ChangeSort) (ask : Form) :
    Prop where
  natural : ∀ {g ts}, K g ts → ask (ts.map g) = ask ts
  lawful : ∀ {ts kind p}, ask ts = some (kind, p) → LawfulFor K p

/-- By `wrappings_induction`: each node takes in what was read. -/
theorem keeps_wrappings
    (hask : ∀ {ts kind p}, ask ts = some (kind, p) → Keeps p)
    (h : wrappings ask f ts = .ok (f', rest)) : forestTokens f' ++ rest = forestTokens f ++ ts := by
  refine wrappings_induction
    (motive := fun f ts f' rest => forestTokens f' ++ rest = forestTokens f ++ ts)
    ?_ ?_ ?_ h
  · intro f ts _
    rfl
  · intro f ts kind p g rest ha hp _
    rw [forestTokens_singleton, tokens_node, forestTokens_append, append_assoc,
      hask ha hp]
  · intro f ts kind p g mid f' rest ha hp _ _ ih
    rw [ih, forestTokens_singleton, tokens_node, forestTokens_append, append_assoc,
      hask ha hp]

/-- A wrapping commutes with the change if each form does, where `P` holds before each round. -/
theorem wrappings_map
    (hask : ∀ ts, P ts → ask (ts.map g) = ask ts)
    (hform : ∀ ⦃ts kind p⦄, P ts → ask ts = some (kind, p) → Commutes g p ts)
    (hnext : ∀ ⦃ts kind p f mid⦄, P ts → ask ts = some (kind, p) → p ts = .ok (f, mid) → P mid)
    (f : List Tree) (hts : P ts) :
    wrappings ask (f.map (relabel g)) (ts.map g) = relabelOutcome g (wrappings ask f ts) := by
  induction hn : ts.length using Nat.strongRecOn generalizing f ts with
  | ind n ih =>
    rw [wrappings, wrappings, hask ts hts]
    cases ha : ask ts with
    | none => rfl
    | some form =>
      obtain ⟨kind, p⟩ := form
      refine relabelOutcome_andThen (hform hts ha) fun f' mid hok => ?_
      have hnode : Yield.wrap kind (f.map (relabel g)) (f'.map (relabel g)) =
          (Yield.wrap kind f f').map (relabel g) := by
        simp only [Yield.wrap, map_singleton, relabel_node, map_append]
      rw [length_map, length_map, hnode]
      by_cases hlt : mid.length < ts.length
      · rw [if_pos hlt, if_pos hlt]
        exact ih mid.length (hn ▸ hlt) _ (hnext hts ha hok) rfl
      · rw [if_neg hlt, if_neg hlt]
        rfl

theorem wrapping_eq_ok (h : wrapping p ask ts = .ok (f, rest)) :
    ∃ f₁ mid, p ts = .ok (f₁, mid) ∧ wrappings ask f₁ mid = .ok (f, rest) :=
  andThen_eq_ok h

/-- By `keeps_wrappings`, started with what the first rule reads. -/
theorem Keeps.wrapping (hp : Keeps p)
    (hask : ∀ {ts kind p}, ask ts = some (kind, p) → Keeps p) : Keeps (wrapping p ask) := by
  intro ts f rest h
  obtain ⟨f₁, mid, h₁, h₂⟩ := wrapping_eq_ok h
  rw [keeps_wrappings hask h₂, hp h₁]

/-- By `wrappings_map`, with an invariant `P` of the rest. -/
theorem Commutes.wrapping
    (hp : Commutes g p ts) (hstart : ∀ ⦃f mid⦄, p ts = .ok (f, mid) → P mid)
    (hask : ∀ ts, P ts → ask (ts.map g) = ask ts)
    (hform : ∀ ⦃ts kind p⦄, P ts → ask ts = some (kind, p) → Commutes g p ts)
    (hnext : ∀ ⦃ts kind p f mid⦄, P ts → ask ts = some (kind, p) → p ts = .ok (f, mid) → P mid) :
    Commutes g (wrapping p ask) ts :=
  relabelOutcome_andThen hp fun f _ hok => wrappings_map hask hform hnext f (hstart hok)

theorem LawfulFor.wrapping [Changes K] (hp : LawfulFor K p)
    (hask : LawfulForms K ask) : LawfulFor K (wrapping p ask) where
  keeps := hp.keeps.wrapping fun ha => (hask.lawful ha).keeps
  commutes {g _} hg := Commutes.wrapping (P := K g) (hp.commutes hg) (fun _ _ h => hp.keeps.change hg h)
    (fun _ h => hask.natural h) (fun _ _ _ h ha => (hask.lawful ha).commutes h)
    fun _ _ _ _ _ h ha hok => (hask.lawful ha).keeps.change h hok

/-! ### Chains -/

/-- **Induction over the links of a chain.** A chain that succeeds ends after its next part, or goes on
    behind a link. -/
theorem chain_induction {link : String} {motive : List Token → List Tree → List Token → Prop}
    (stop : ∀ ts f rest, p ts = .ok (f, rest) →
      ¬ (sees link rest = true ∧ (rest.drop 1).length < ts.length) → motive ts [.node kind f] rest)
    (round : ∀ ts f mid f' rest, p ts = .ok (f, mid) → sees link mid = true →
      (mid.drop 1).length < ts.length → chain kind p link (mid.drop 1) = .ok (f', rest) →
      motive (mid.drop 1) f' rest → motive ts (.node kind (f ++ (mid.take 1).map .token) :: f') rest)
    (h : chain kind p link ts = .ok (f, rest)) : motive ts f rest := by
  induction hn : ts.length using Nat.strongRecOn generalizing ts f rest with
  | ind n ih =>
    rw [chain] at h
    obtain ⟨f₁, mid, hp, h⟩ := andThen_eq_ok h
    split at h
    · next hlink =>
      obtain ⟨f₂, rest', hc, h⟩ := andThen_eq_ok h
      cases h
      exact round ts f₁ mid f₂ rest hp hlink.1 hlink.2 hc (ih _ (hn ▸ hlink.2) hc rfl)
    · next hlink =>
      cases h
      exact stop ts f₁ rest hp hlink

/-- By `chain_induction`. -/
theorem Keeps.chain (hp : Keeps p) (kind : NodeKind) (link : String) : Keeps (chain kind p link) := by
  intro ts f rest h
  refine chain_induction (motive := fun ts f rest => forestTokens f ++ rest = ts) ?_ ?_ h
  · intro ts f rest hok _
    rw [forestTokens_singleton, tokens_node, hp hok]
  · intro ts f mid f' rest hok _ _ _ ih
    rw [forestTokens_cons, tokens_node, forestTokens_append,
      forestTokens_map_token, append_assoc, append_assoc, ih,
      take_append_drop, hp hok]

/-- By induction on the length of the input. -/
theorem LawfulFor.chain (kind : NodeKind) (hp : Lawful p) (link : String) : Lawful (chain kind p link) where
  keeps := hp.keeps.chain kind link
  commutes {g ts} hg := by
    unfold Commutes
    replace hg : Token.Unseen g := hg
    induction hn : ts.length using Nat.strongRecOn generalizing ts with
    | ind n ih =>
      rw [Rule.chain, Rule.chain]
      refine relabelOutcome_andThen (hp.natural hg ts) fun f mid hok => ?_
      rw [sees_map hg.respaces, ← map_drop, length_map, length_map]
      by_cases hlink : sees link mid = true ∧ (mid.drop 1).length < ts.length
      · rw [if_pos hlink, if_pos hlink]
        refine relabelOutcome_andThen (ih (mid.drop 1).length (hn ▸ hlink.2) rfl) fun f' rest _ => ?_
        simp only [relabelOutcome_ok, Yield.node, Yield.tokens, List.map_cons, map_nil, relabel_node,
          map_append, ← map_take, map_map]
        congr 6
      · rw [if_neg hlink, if_neg hlink]
        simp only [relabelOutcome_ok, Yield.node, List.map_cons, map_nil, relabel_node]

end Rule
end SwiftOutline
