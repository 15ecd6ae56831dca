import SwiftOutline.Proofs.Grammar.Scheme

/-!
# `Counter` — nesting as a counter that goes up and down

The rules for types and items take the levels that are left as an argument. A parser can keep one counter
instead, which every call of the two rules raises before it reads and lowers afterwards, and which
refuses a call at the limit. Such a counter is state: it is handed on from part to part, also past a
failure, and nothing but the discipline of the calls brings it back to where it was.

A scheme can be read with such a counter. Every reading leaves the counter where it was found, whether it
succeeds or fails, never brings it above the limit, and has the outcome of the rule with the levels that
the counter leaves.
-/

namespace SwiftOutline

open Rule

/-- A counter, with the largest value that it has had. -/
structure Meter where
  depth : Nat
  peak : Nat

namespace Meter

def raise (m : Meter) : Meter := ⟨m.depth + 1, max m.peak (m.depth + 1)⟩

def lower (m : Meter) : Meter := ⟨m.depth - 1, m.peak⟩

end Meter

/-- What a rule gives: trees and the tokens that it has not read, or a fault. -/
abbrev Reading := Except Fault (List Tree × List Token)

/-- A rule that is read with a counter. A fault leaves a counter as well. -/
def Counted := List Token → Meter → Reading × Meter

/-! ## Reading with a counter -/

namespace Counted

/-- Goes on from where a reading has stopped, with the counter that it has left. -/
def andThen (r : Reading × Meter) (next : List Tree → List Token → Meter → Reading × Meter) :
    Reading × Meter :=
  match r with
  | (.error e, m) => (.error e, m)
  | (.ok (f, rest), m) => next f rest m

def seq (p q : Counted) : Counted := fun ts m =>
  andThen (p ts m) fun f rest m => andThen (q rest m) fun g rest' m => (.ok (f ++ g, rest'), m)

def node (kind : NodeKind) (p : Counted) : Counted := fun ts m =>
  andThen (p ts m) fun f rest m => (.ok ([.node kind f], rest), m)

def closing (p : Counted) (kind : List Token → NodeKind) (next : List Token → Counted) : Counted :=
  fun ts m =>
  andThen (p ts m) fun f rest m =>
    andThen (next rest rest m) fun g rest' m => (.ok ([.node (kind rest) (f ++ g)], rest'), m)

def many (ask : Lookahead) (p : Counted) : Counted := fun ts m =>
  if ask ts then
    andThen (p ts m) fun f rest m =>
      if rest.length < ts.length then
        andThen (many ask p rest m) fun g rest' m => (.ok (f ++ g, rest'), m)
      else (.ok (f, rest), m)
  else (.ok ([], ts), m)
termination_by ts => ts.length

def wrappings (kind : List Token → Option NodeKind) (next : List Token → Counted) (f : List Tree) : Counted :=
  fun ts m =>
    match kind ts with
    | none => (.ok (f, ts), m)
    | some k =>
      andThen (next ts ts m) fun g rest m =>
        if rest.length < ts.length then wrappings kind next [.node k (f ++ g)] rest m
        else (.ok ([.node k (f ++ g)], rest), m)
termination_by ts => ts.length

def wrapping (p : Counted) (kind : List Token → Option NodeKind) (next : List Token → Counted) : Counted :=
  fun ts m => andThen (p ts m) fun f rest m => wrappings kind next f rest m

def chain (kind : NodeKind) (p : Counted) (link : String) : Counted := fun ts m =>
  andThen (p ts m) fun f rest m =>
    if sees link rest ∧ (rest.drop 1).length < ts.length then
      andThen (chain kind p link (rest.drop 1) m) fun g rest' m =>
        (.ok (.node kind (f ++ (rest.take 1).map .token) :: g, rest'), m)
    else (.ok ([.node kind f], rest), m)
termination_by ts => ts.length
decreasing_by simp_all

/-- A call one level deeper. At the limit it is refused; otherwise the counter is raised for the reading
    and lowered after it, whatever the outcome. -/
def nested (p : Counted) : Counted := fun ts m =>
  if nestingLimit ≤ m.depth then (.error (.tooDeep ts.head?), m)
  else ((p ts m.raise).1, (p ts m.raise).2.lower)

end Counted

namespace Scheme

/-- A scheme read with a counter, over counted rules for types and items. -/
def count (type item : Counted) : Scheme → Counted
  | plain split => fun ts m => (run split ts, m)
  | .type => type
  | .item => item
  | seq g h => (g.count type item).seq (h.count type item)
  | node kind g => (g.count type item).node kind
  | closing _ g kind next => (g.count type item).closing kind fun ts => (next ts).count type item
  | many ask g => (g.count type item).many ask
  | wrapping g kind next => (g.count type item).wrapping kind fun ts => (next ts).count type item
  | chain kind g link => (g.count type item).chain kind link
  | given choose => fun ts => (choose ts).count type item ts

/-- The counted rules for types and items that a scheme for each makes, with at most `n` calls open at a
    time; further ones are left to the rules `beyond`. -/
def calls (types items : Scheme) (beyond : Counted × Counted) : Nat → Counted × Counted
  | 0 => beyond
  | n + 1 =>
    (.nested (types.count (calls types items beyond n).1 (calls types items beyond n).2),
      .nested (items.count (calls types items beyond n).1 (calls types items beyond n).2))

end Scheme

/-! ## The counter comes back -/

namespace Counted

/-- The reading has this outcome, leaves the counter at `d`, and the counter has never been above the
limit. -/
structure Settled (d : Nat) (out : Reading) (r : Reading × Meter) : Prop where
  outcome : r.1 = out
  depth : r.2.depth = d
  peak : r.2.peak ≤ nestingLimit

/-- **From a counter at `d`, the reading has the outcome of the rule and leaves the counter at `d`**,
    also if it fails, and on the way the counter is never above the limit. -/
def Settles (d : Nat) (p : Rule) (c : Counted) : Prop :=
  ∀ ts m, m.depth = d → m.peak ≤ nestingLimit → Settled d (p ts) (c ts m)

variable {d : Nat}

theorem settled_self {out : Reading} {m : Meter} (hd : m.depth = d) (hm : m.peak ≤ nestingLimit) :
    Settled d out (out, m) :=
  ⟨rfl, hd, hm⟩

/-- What goes on from a reading leaves the counter where the reading has left it, if each part does. -/
theorem Settled.andThen {out : Reading} {r : Reading × Meter} {after : List Tree → List Token → Reading}
    {next : List Tree → List Token → Meter → Reading × Meter} (h : Settled d out r)
    (hnext : ∀ f rest m, m.depth = d → m.peak ≤ nestingLimit → Settled d (after f rest) (next f rest m)) :
    Settled d (Rule.andThen out after) (andThen r next) := by
  obtain ⟨out', m⟩ := r
  obtain rfl : out' = out := h.outcome
  cases out' with
  | error e => exact ⟨rfl, h.depth, h.peak⟩
  | ok read => exact hnext read.1 read.2 m h.depth h.peak

variable {p q : Rule} {c e : Counted} {next : List Token → Rule} {next' : List Token → Counted}

theorem Settles.seq (hp : Settles d p c) (hq : Settles d q e) : Settles d (p ++ q) (c.seq e) := by
  intro ts m hd hm
  refine (hp ts m hd hm).andThen fun f rest m hd hm => ?_
  exact (hq rest m hd hm).andThen fun g rest' m => settled_self

theorem Settles.node (hp : Settles d p c) (kind : NodeKind) : Settles d (.node kind p) (c.node kind) := by
  intro ts m hd hm
  exact (hp ts m hd hm).andThen fun f rest m => settled_self

theorem Settles.closing {first : NodeKind} (hp : Settles d p c) {kind : List Token → NodeKind}
    (hnext : ∀ ts, Settles d (next ts) (next' ts)) :
    Settles d (.closing first p fun ts => (kind ts, next ts)) (c.closing kind next') := by
  intro ts m hd hm
  refine (hp ts m hd hm).andThen fun f rest m hd hm => ?_
  exact (hnext rest rest m hd hm).andThen fun g rest' m => settled_self

theorem Settles.many (hp : Settles d p c) (ask : Lookahead) : Settles d (.many ask p) (c.many ask) := by
  intro ts m hd hm
  induction hn : ts.length using Nat.strongRecOn generalizing ts m with
  | ind n ih =>
    rw [Counted.many, Rule.many]
    cases ask ts with
    | false => exact settled_self hd hm
    | true =>
      refine (hp ts m hd hm).andThen fun f rest m hd hm => ?_
      by_cases hlt : rest.length < ts.length
      · rw [if_pos hlt, if_pos hlt]
        exact (ih rest.length (hn ▸ hlt) rest m hd hm rfl).andThen fun g rest' m => settled_self
      · rw [if_neg hlt, if_neg hlt]
        exact settled_self hd hm

theorem settled_wrappings {kind : List Token → Option NodeKind}
    (hnext : ∀ ts, Settles d (next ts) (next' ts)) (f : List Tree) {ts : List Token}
    {m : Meter} (hd : m.depth = d) (hm : m.peak ≤ nestingLimit) :
    Settled d (Rule.wrappings (fun ts => (kind ts).map fun k => (k, next ts)) f ts)
      (wrappings kind next' f ts m) := by
  induction hn : ts.length using Nat.strongRecOn generalizing f ts m with
  | ind n ih =>
    rw [wrappings, Rule.wrappings]
    cases kind ts with
    | none => exact settled_self hd hm
    | some k =>
      refine (hnext ts ts m hd hm).andThen fun g rest m hd hm => ?_
      by_cases hlt : rest.length < ts.length
      · rw [if_pos hlt, if_pos hlt]
        exact ih rest.length (hn ▸ hlt) _ hd hm rfl
      · rw [if_neg hlt, if_neg hlt]
        exact settled_self hd hm

theorem Settles.wrapping (hp : Settles d p c) {kind : List Token → Option NodeKind}
    (hnext : ∀ ts, Settles d (next ts) (next' ts)) :
    Settles d (.wrapping p fun ts => (kind ts).map fun k => (k, next ts)) (c.wrapping kind next') := by
  intro ts m hd hm
  exact (hp ts m hd hm).andThen fun f rest m => settled_wrappings hnext f

theorem Settles.chain (hp : Settles d p c) (kind : NodeKind) (link : String) :
    Settles d (.chain kind p link) (c.chain kind link) := by
  intro ts m hd hm
  induction hn : ts.length using Nat.strongRecOn generalizing ts m with
  | ind n ih =>
    rw [Counted.chain, Rule.chain]
    refine (hp ts m hd hm).andThen fun f rest m hd hm => ?_
    by_cases hlink : sees link rest = true ∧ (rest.drop 1).length < ts.length
    · rw [if_pos hlink, if_pos hlink]
      exact (ih _ (hn ▸ hlink.2) (rest.drop 1) m hd hm rfl).andThen fun g rest' m => settled_self
    · rw [if_neg hlink, if_neg hlink]
      exact settled_self hd hm

/-- **A scheme leaves the counter where it was**, if the calls that it makes do. -/
theorem settles_count {type item : Rule} {type' item' : Counted} (htype : Settles d type type')
    (hitem : Settles d item item') (g : Scheme) : Settles d (g.read type item) (g.count type' item') := by
  induction g with
  | plain split => exact fun ts m hd hm => settled_self hd hm
  | type => exact htype
  | item => exact hitem
  | seq g h ihg ihh => exact ihg.seq ihh
  | node kind g ih => exact ih.node kind
  | closing first g kind next ih ihnext => exact ih.closing ihnext
  | many ask g ih => exact ih.many ask
  | wrapping g kind next ih ihnext => exact ih.wrapping ihnext
  | chain kind g link ih => exact ih.chain kind link
  | given choose ih => exact fun ts m hd hm => ih ts ts m hd hm

/-- At the limit a call is refused, and the counter stays. -/
theorem settles_nested_limit (c : Counted) : Settles nestingLimit .tooDeep (nested c) := by
  intro ts m hd hm
  unfold nested
  rw [if_pos (Nat.le_of_eq hd.symm)]
  exact settled_self hd hm

/-- Below the limit a call raises the counter and lowers it again. -/
theorem Settles.nested (h : Settles (d + 1) p c) (hd : d < nestingLimit) : Settles d p (nested c) := by
  intro ts m hdepth hm
  have hread := h ts m.raise (by rw [Meter.raise, hdepth]) (by simp only [Meter.raise]; omega)
  unfold Counted.nested
  rw [if_neg (by omega)]
  refine ⟨hread.outcome, ?_, hread.peak⟩
  simp only [Meter.lower, hread.depth]
  omega

end Counted

/-! ## The grammar -/

/-- The grammar as schemes: one level of types and of items, a whole file, and a single type. -/
structure Schemes where
  types : Scheme
  items : Scheme
  file : Scheme
  sole : Scheme
  read_types : ∀ type item, types.read type item = typeBody type
  read_items : ∀ type item, items.read type item = itemBody type item
  read_file : file.read (type nestingLimit) (item nestingLimit) = sourceItems
  read_sole : sole.read (type nestingLimit) (item nestingLimit) = soleType

theorem nonempty_schemes : Nonempty Schemes := by
  obtain ⟨types, -, -, htypes⟩ := Schematic.typeBody (n := 0) (l := true)
  obtain ⟨items, -, -, hitems⟩ := Schematic.itemBody (n := 0) (l := true)
  obtain ⟨file, -, -, hfile⟩ := Schematic.sourceItems (n := 0)
  obtain ⟨sole, -, -, hsole⟩ := Schematic.soleType (n := 0)
  exact ⟨types, items, file, sole, htypes, hitems, hfile _ _, hsole _ _⟩

namespace Schemes

open Counted

variable (s : Schemes) (beyond : Counted × Counted)

/-- The counted rules for types and items, with at most `n` calls open at a time. -/
def calls (n : Nat) : Counted × Counted := s.types.calls s.items beyond n

/-- **The calls of a parser with a counter.** Started with the counter at `d`, the calls for types and
    items have the outcome of the rules with the levels that are left, and they leave the counter at `d`.
    The calls that are left to other rules are never reached. -/
theorem settles_calls {n d : Nat} (hd : d ≤ nestingLimit) (hn : nestingLimit < d + n) :
    Settles d (type (nestingLimit - d)) (s.calls beyond n).1 ∧
      Settles d (item (nestingLimit - d)) (s.calls beyond n).2 := by
  induction n generalizing d with
  | zero => omega
  | succ n ih =>
    by_cases hlimit : d = nestingLimit
    · subst hlimit
      rw [Nat.sub_self]
      exact ⟨settles_nested_limit _, settles_nested_limit _⟩
    · have hlt : d < nestingLimit := by omega
      obtain ⟨htype, hitem⟩ := ih hlt (by omega)
      have hleft : nestingLimit - d = nestingLimit - (d + 1) + 1 := by omega
      rw [hleft]
      constructor
      · refine Settles.nested ?_ hlt
        rw [type, ← s.read_types _ (item (nestingLimit - (d + 1)))]
        exact settles_count htype hitem s.types
      · refine Settles.nested ?_ hlt
        rw [item, ← s.read_items]
        exact settles_count htype hitem s.items

/-- The counted rule of a scheme that is read at the outset of a parse. -/
def outset (g : Scheme) : Counted :=
  g.count (s.calls beyond (nestingLimit + 1)).1 (s.calls beyond (nestingLimit + 1)).2

theorem settles_outset (g : Scheme) :
    Settles 0 (g.read (type nestingLimit) (item nestingLimit)) (s.outset beyond g) := by
  obtain ⟨htype, hitem⟩ := s.settles_calls beyond (n := nestingLimit + 1) (Nat.zero_le _) (by omega)
  exact settles_count htype hitem g

/-- Reading a file from a counter at zero leaves it there. -/
theorem settles_file : Settles 0 sourceItems (s.outset beyond s.file) := by
  rw [← s.read_file]
  exact s.settles_outset beyond s.file

/-- So does reading a single type. -/
theorem settles_sole : Settles 0 soleType (s.outset beyond s.sole) := by
  rw [← s.read_sole]
  exact s.settles_outset beyond s.sole

end Schemes

end SwiftOutline
