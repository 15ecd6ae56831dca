import SwiftOutline.Proofs.Tree.Visit

/-!
# `Pruning` — what a policy leaves out of a walk

A node has an address from the place where a walk starts: the numbers of the children on the way to it.
Addresses in the order of a dictionary are the nodes parents first. A policy can only take something away
from the walk through all nodes: passing over children leaves out what is below a node, and ending the
walk leaves out all that comes later, the leaving of the open nodes included.
-/

namespace SwiftOutline

open SwiftOutline.Tree List

namespace Place

/-! ## Addresses -/

/-- The place that an address leads to: at each level it names a child by its number. -/
def at? (p : Place) : List Nat → Option Place
  | [] => some p
  | i :: address => p.tree.children[i]?.bind fun c => (p.down c).at? address

/-- The address leads to a node, and the policy goes on at every place on the way there. -/
def Reached (policy : Place → Verdict) (p : Place) (address : List Nat) : Prop :=
  (∃ q, p.at? address = some q ∧ q.tree.isNode = true) ∧
    ∀ b, b <+: address → b ≠ address → ∃ r, p.at? b = some r ∧ policy r = .descend

variable {policy : Place → Verdict}

variable {p : Place} {i : Nat} {a b : List Nat} {events : List Event}

theorem at?_cons {c : Tree} (hc : p.tree.children[i]? = some c) (address : List Nat) :
    p.at? (i :: address) = (p.down c).at? address := by
  rw [at?, hc, Option.bind_some]

theorem reached_nil : p.Reached policy [] ↔ p.tree.isNode = true := by
  constructor
  · rintro ⟨⟨q, hq, hnode⟩, -⟩
    cases hq
    exact hnode
  · intro hnode
    exact ⟨⟨p, rfl, hnode⟩, fun b hb hne => absurd (prefix_nil.mp hb) hne⟩

theorem reached_cons {address : List Nat} : p.Reached policy (i :: address) ↔
    policy p = .descend ∧ ∃ c, p.tree.children[i]? = some c ∧ (p.down c).Reached policy address := by
  constructor
  · rintro ⟨⟨q, hq, hnode⟩, hway⟩
    obtain ⟨r, hr, hdescend⟩ := hway [] List.nil_prefix (cons_ne_nil i address).symm
    cases hr
    rw [at?] at hq
    obtain ⟨c, hc, hq⟩ := Option.bind_eq_some_iff.mp hq
    refine ⟨hdescend, c, hc, ⟨q, hq, hnode⟩, ?_⟩
    intro b hb hne
    have hbelow := hway (i :: b) (cons_prefix_cons.mpr ⟨rfl, hb⟩) (fun h => hne (List.cons.inj h).2)
    rwa [at?_cons hc] at hbelow
  · rintro ⟨hdescend, c, hc, ⟨q, hq, hnode⟩, hway⟩
    refine ⟨⟨q, (at?_cons hc address).trans hq, hnode⟩, ?_⟩
    intro b hb hne
    cases b with
    | nil => exact ⟨p, rfl, hdescend⟩
    | cons j b =>
      obtain ⟨rfl, hbelow⟩ := cons_prefix_cons.mp hb
      rw [at?_cons hc]
      exact hway b hbelow (fun h => hne (congrArg _ h))

/-- The way to a node that is reached goes through nodes that are reached. -/
theorem Reached.of_isPrefix (h : p.Reached policy a) (hb : b <+: a) : p.Reached policy b := by
  induction b generalizing p a with
  | nil =>
    cases a with
    | nil => exact h
    | cons i a =>
      obtain ⟨-, c, hc, -⟩ := reached_cons.mp h
      refine reached_nil.mpr ?_
      obtain ⟨t, above⟩ := p
      cases t with
      | token t => cases hc
      | node k cs => rfl
  | cons i b ih =>
    cases a with
    | nil => cases prefix_nil.mp hb
    | cons j a =>
      obtain ⟨rfl, hbelow⟩ := cons_prefix_cons.mp hb
      obtain ⟨hdescend, c, hc, hreached⟩ := reached_cons.mp h
      exact reached_cons.mpr ⟨hdescend, c, hc, ih hreached hbelow⟩

mutual

/-- The addresses that are reached in a tree below `above`, in order. -/
def addressesOfTree (policy : Place → Verdict) (above : List Tree) : Tree → List (List Nat)
  | .token _ => []
  | .node k cs =>
    [] :: if policy ⟨.node k cs, above⟩ = .descend then addressesOfForest policy
      (.node k cs :: above) 0 cs else []

/-- The addresses that are reached in the children from number `i` on, in order. -/
def addressesOfForest (policy : Place → Verdict) (above : List Tree) (i : Nat) : List Tree → List (List Nat)
  | [] => []
  | t :: ts => (addressesOfTree policy above t).map (i :: ·) ++ addressesOfForest policy above (i + 1) ts

end

theorem le_of_mem_addressesOfForest {above ts : List Tree}
    (h : a ∈ addressesOfForest policy above i ts) : ∃ j address, a = j :: address ∧ i ≤ j := by
  induction ts generalizing i with
  | nil => cases h
  | cons t ts ih =>
    rw [addressesOfForest] at h
    rcases mem_append.mp h with h | h
    · obtain ⟨address, -, rfl⟩ := mem_map.mp h
      exact ⟨i, address, rfl, Nat.le_refl i⟩
    · obtain ⟨j, address, rfl, hle⟩ := ih h
      exact ⟨j, address, rfl, Nat.le_of_succ_le hle⟩

mutual

theorem pairwise_addressesOfTree (above : List Tree) :
    (t : Tree) → (addressesOfTree policy above t).Pairwise (· < ·)
  | .token _ => .nil
  | .node k cs => by
    rw [addressesOfTree, pairwise_cons]
    split
    · refine ⟨?_, pairwise_addressesOfForest (.node k cs :: above) 0 cs⟩
      intro a ha
      obtain ⟨j, address, rfl, -⟩ := le_of_mem_addressesOfForest ha
      exact nil_lt_cons j address
    · exact ⟨fun a ha => (not_mem_nil ha).elim, .nil⟩

theorem pairwise_addressesOfForest (above : List Tree) (i : Nat) :
    (ts : List Tree) → (addressesOfForest policy above i ts).Pairwise (· < ·)
  | [] => .nil
  | t :: ts => by
    rw [addressesOfForest, pairwise_append, pairwise_map]
    refine ⟨(pairwise_addressesOfTree above t).imp fun h => cons_lt_cons_self.mpr h,
      pairwise_addressesOfForest above (i + 1) ts, ?_⟩
    -- the addresses of one child come before those of the next
    intro a ha b hb
    obtain ⟨address, -, rfl⟩ := mem_map.mp ha
    obtain ⟨j, address', rfl, hle⟩ := le_of_mem_addressesOfForest hb
    exact cons_lt_cons_iff.mpr (.inl hle)

end

mutual

theorem mem_addressesOfTree (above : List Tree) : (t : Tree) → (a : List Nat) →
    (a ∈ addressesOfTree policy above t ↔ Reached policy ⟨t, above⟩ a)
  | .token t, a => by
    rw [addressesOfTree]
    refine ⟨fun h => (not_mem_nil h).elim, fun h => ?_⟩
    cases reached_nil.mp (h.of_isPrefix List.nil_prefix)
  | .node k cs, [] => by
    rw [addressesOfTree]
    exact ⟨fun _ => reached_nil.mpr rfl, fun _ => mem_cons_self⟩
  | .node k cs, i :: a => by
    have hforest := mem_addressesOfForest (.node k cs :: above) 0 cs (i :: a)
    rw [addressesOfTree, reached_cons, mem_cons, or_iff_right (cons_ne_nil i a)]
    split
    · next hdescend =>
      rw [hforest, and_iff_right hdescend]
      constructor
      · rintro ⟨j, c, b, heq, hc, hreached⟩
        cases heq
        exact ⟨c, by rwa [Nat.zero_add], hreached⟩
      · rintro ⟨c, hc, hreached⟩
        exact ⟨i, c, a, by rw [Nat.zero_add], hc, hreached⟩
    · next hdescend => exact ⟨fun h => (not_mem_nil h).elim, fun h => absurd h.1 hdescend⟩

theorem mem_addressesOfForest (above : List Tree) (i : Nat) : (ts : List Tree) → (a : List Nat) →
    (a ∈ addressesOfForest policy above i ts ↔
      ∃ j c b, a = (i + j) :: b ∧ ts[j]? = some c ∧ Reached policy ⟨c, above⟩ b)
  | [], a => by
    rw [addressesOfForest]
    refine ⟨fun h => (not_mem_nil h).elim, ?_⟩
    rintro ⟨j, c, b, -, hc, -⟩
    cases hc
  | t :: ts, a => by
    rw [addressesOfForest, mem_append, mem_map, mem_addressesOfForest above (i + 1) ts a]
    constructor
    · rintro (⟨b, hb, rfl⟩ | ⟨j, c, b, rfl, hc, hb⟩)
      · exact ⟨0, t, b, rfl, rfl, (mem_addressesOfTree above t b).mp hb⟩
      · exact ⟨j + 1, c, b, by rw [Nat.add_assoc, Nat.add_comm 1], hc, hb⟩
    · rintro ⟨j, c, b, rfl, hc, hb⟩
      cases j with
      | zero =>
        cases hc
        exact .inl ⟨b, (mem_addressesOfTree above t b).mpr hb, rfl⟩
      | succ j => exact .inr ⟨j, c, b, by rw [Nat.add_assoc, Nat.add_comm 1], hc, hb⟩

end

/-! ## Walks that are not ended -/

mutual

theorem map_at?_addressesOfTree (hpolicy : ∀ p, policy p ≠ .halt) (above : List Tree) : (t : Tree) →
    (addressesOfTree policy above t).map (at? ⟨t, above⟩) = (visited policy ⟨t, above⟩).map some
  | .token t => by
    rw [addressesOfTree, visited_token]
    rfl
  | .node k cs => by
    rw [addressesOfTree, visited_node hpolicy, List.map_cons, List.map_cons]
    split
    · exact congrArg _ (map_at?_addressesOfForest hpolicy k above [] cs)
    · rfl

/-- The addresses of the children from some number on lead to what a walk enters from these children. -/
theorem map_at?_addressesOfForest (hpolicy : ∀ p, policy p ≠ .halt) (k : NodeKind) (above front : List Tree) :
    (ts : List Tree) →
    (addressesOfForest policy (.node k (front ++ ts) :: above) front.length ts).map
      (at? ⟨.node k (front ++ ts), above⟩) =
      (ts.flatMap fun c => visited policy ⟨c, .node k (front ++ ts) :: above⟩).map some
  | [] => by
    rw [addressesOfForest]
    rfl
  | t :: ts => by
    have htree := map_at?_addressesOfTree hpolicy (.node k (front ++ t :: ts) :: above) t
    have hforest := map_at?_addressesOfForest hpolicy k above (front ++ [t]) ts
    have hchild : (Place.mk (.node k (front ++ t :: ts)) above).tree.children[front.length]? = some t := by
      show (front ++ t :: ts)[front.length]? = some t
      rw [List.getElem?_append_right (Nat.le_refl _), Nat.sub_self]
      rfl
    have hmap := map_congr_left (l := addressesOfTree policy (.node k (front ++ t :: ts) :: above) t)
      fun address _ => at?_cons hchild address
    rw [append_assoc, length_append] at hforest
    rw [addressesOfForest, map_append, map_map, flatMap_cons, map_append, ← htree]
    exact congr (congrArg _ hmap) hforest

end

/-- The events enter the children of a node one after another: each is left again, once, and in between
only nodes below it are entered and left. -/
inductive Nested : List Tree → List Event → Prop where
  | nil {above : List Tree} : Nested above []
  | node {p : Place} {inside after : List Event} (hinside : Nested (p.tree :: p.above) inside)
      (hafter : Nested p.above after) : Nested p.above (.enter p :: (inside ++ .leave p :: after))

theorem Nested.append {above : List Tree} {more : List Event} (h : Nested above events)
    (hmore : Nested above more) : Nested above (events ++ more) := by
  induction h with
  | nil => exact hmore
  | node hinside _ _ ih =>
    rw [cons_append, append_assoc, cons_append]
    exact .node hinside (ih hmore)

mutual

theorem nested_walkTree (hpolicy : ∀ p, policy p ≠ .halt) (above : List Tree) :
    (t : Tree) → Nested above (walkTree policy above t).1
  | .token _ => by
    rw [walkTree]
    exact .nil
  | .node k cs => by
    have hforest := nested_walkForest hpolicy (.node k cs :: above) cs
    rw [events_node hpolicy]
    refine .node (p := ⟨.node k cs, above⟩) ?_ .nil
    split
    · exact hforest
    · exact .nil

theorem nested_walkForest (hpolicy : ∀ p, policy p ≠ .halt) (above : List Tree) :
    (ts : List Tree) → Nested above (walkForest policy above ts).1
  | [] => by
    rw [walkForest]
    exact .nil
  | t :: ts => by
    rw [events_cons hpolicy]
    exact (nested_walkTree hpolicy above t).append (nested_walkForest hpolicy above ts)

end

/-! ## Walks that are ended -/

/-- The policy that goes on where the other one ends the walk. -/
def unhalted (policy : Place → Verdict) (p : Place) : Verdict :=
  if policy p = .halt then .descend else policy p

theorem unhalted_ne_halt (p : Place) : unhalted policy p ≠ .halt := by
  unfold unhalted
  split
  · exact nofun
  · next h => exact h

theorem unhalted_of_ne (h : policy p ≠ .halt) : unhalted policy p = policy p := if_neg h

theorem ne_halt_of_eq {v : Verdict} (h : policy p = v) (hv : v ≠ .halt) : policy p ≠ .halt := h ▸ hv

/-- What becomes of a walk with these events where the policy may end it: it goes on to the end, or it
ends at the first node at which the policy says so, with the entering of that node. -/
inductive CutShort (policy : Place → Verdict) (full : List Event) : List Event × Bool → Prop where
  | finished (h : ∀ r, .enter r ∈ full → policy r ≠ .halt) : CutShort policy full (full, true)
  | halted (before : List Event) (q : Place) (after : List Event) (hfull : full = before ++ .enter q :: after)
      (hbefore : ∀ r, .enter r ∈ before → policy r ≠ .halt) (hq : policy q = .halt) :
      CutShort policy full (before ++ [.enter q], false)

namespace CutShort

variable {front full more : List Event} {run : List Event × Bool}

theorem append_left (hfront : ∀ r, .enter r ∈ front → policy r ≠ .halt) (h : CutShort policy full run) :
    CutShort policy (front ++ full) (front ++ run.1, run.2) := by
  cases h with
  | finished h => exact .finished fun r hr => (mem_append.mp hr).elim (hfront r) (h r)
  | halted before q after hfull hbefore hq =>
    rw [hfull, ← append_assoc, ← append_assoc]
    exact .halted _ q after rfl (fun r hr => (mem_append.mp hr).elim (hfront r) (hbefore r)) hq

/-- What comes after the end of a walk makes no difference to it. -/
theorem append_right {events : List Event} (h : CutShort policy full (events, false)) :
    CutShort policy (full ++ more) (events, false) := by
  cases h with
  | halted before q after hfull hbefore hq =>
    rw [hfull, append_assoc, cons_append]
    exact .halted before q (after ++ more) rfl hbefore hq

theorem eq_of_finished {events : List Event} (h : CutShort policy full (events, true)) :
    events = full ∧ ∀ r, .enter r ∈ full → policy r ≠ .halt := by
  cases h with
  | finished h => exact ⟨rfl, h⟩

end CutShort

theorem enter_ne_halt (h : policy p ≠ .halt) : ∀ r, .enter r ∈ [Event.enter p] → policy r ≠ .halt := by
  intro r hr
  cases mem_singleton.mp hr
  exact h

mutual

/-- **A walk is that of the policy that never ends one**, cut short at the first node at which it is ended. -/
theorem cutShort_walkTree (above : List Tree) :
    (t : Tree) → CutShort policy (walkTree (unhalted policy) above t).1 (walkTree policy above t)
  | .token _ => by
    rw [walkTree, walkTree]
    exact .finished nofun
  | .node k cs => by
    have hforest := cutShort_walkForest (.node k cs :: above) cs
    have hleave : ∀ r, .enter r ∈ [Event.leave ⟨.node k cs, above⟩] → policy r ≠ .halt := by
      intro r hr
      cases mem_singleton.mp hr
    rw [events_node unhalted_ne_halt, walkTree]
    cases hverdict : policy ⟨.node k cs, above⟩ with
    | halt => exact .halted [] ⟨.node k cs, above⟩ _ rfl nofun hverdict
    | prune =>
      have hne := ne_halt_of_eq hverdict (by decide)
      rw [unhalted_of_ne hne, hverdict, if_neg (by decide)]
      exact (CutShort.finished hleave).append_left (enter_ne_halt hne)
    | descend =>
      have hne := ne_halt_of_eq hverdict (by decide)
      have henter := enter_ne_halt hne
      rw [unhalted_of_ne hne, hverdict, if_pos rfl]
      simp only
      split
      · next events heq =>
        rw [heq] at hforest
        obtain ⟨rfl, hnone⟩ := hforest.eq_of_finished
        exact ((CutShort.finished hleave).append_left hnone).append_left henter
      · next events heq =>
        -- the node stays open, and so do all above it
        rw [heq] at hforest
        exact hforest.append_right.append_left henter

theorem cutShort_walkForest (above : List Tree) :
    (ts : List Tree) → CutShort policy (walkForest (unhalted policy) above ts).1 (walkForest policy above ts)
  | [] => by
    rw [walkForest, walkForest]
    exact .finished nofun
  | t :: ts => by
    have htree := cutShort_walkTree above t
    have hforest := cutShort_walkForest above ts
    rw [events_cons unhalted_ne_halt, walkForest]
    split
    · next events heq =>
      rw [heq] at htree
      obtain ⟨rfl, hnone⟩ := htree.eq_of_finished
      exact hforest.append_left hnone
    · next events heq =>
      rw [heq] at htree
      exact htree.append_right

end

/-! ## The nodes that are entered -/

theorem entered_append_enter (before : List Event) (q : Place) :
    (before ++ [Event.enter q]).filterMap Event.entered? = before.filterMap Event.entered? ++ [q] := by
  rw [filterMap_append]
  rfl

theorem mem_entered_iff {r : Place} : r ∈ events.filterMap Event.entered? ↔ .enter r ∈ events := by
  rw [mem_filterMap]
  constructor
  · rintro ⟨e, he, hr⟩
    cases e with
    | enter p =>
      cases hr
      exact he
    | leave p => cases hr
  · intro h
    exact ⟨_, h, rfl⟩

/-- The address is reached, and no address before it that is reached leads to where the policy ends the
walk. -/
def Entered (policy : Place → Verdict) (p : Place) (a : List Nat) : Prop :=
  p.Reached policy a ∧ ∀ b q, p.Reached policy b → p.at? b = some q → policy q = .halt → ¬ b < a

theorem Reached.imp {other : Place → Verdict} (h : p.Reached policy a)
    (hother : ∀ b, b <+: a → b ≠ a → ∀ r, p.at? b = some r → policy r = .descend → other r = .descend) :
    p.Reached other a := by
  refine ⟨h.1, fun b hb hne => ?_⟩
  obtain ⟨r, hr, hdescend⟩ := h.2 b hb hne
  exact ⟨r, hr, hother b hb hne r hr hdescend⟩

theorem Reached.unhalted {p : Place} {a : List Nat} (h : p.Reached policy a) :
    p.Reached (unhalted policy) a := by
  refine h.imp fun b _ _ r _ hdescend => ?_
  rw [unhalted_of_ne (ne_halt_of_eq hdescend (by decide)), hdescend]

/-- A proper beginning of an address comes before it. -/
theorem lt_of_isPrefix (h : b <+: a) (hne : b ≠ a) : b < a := by
  induction b generalizing a with
  | nil =>
    obtain ⟨i, a, rfl⟩ := exists_cons_of_ne_nil hne.symm
    exact nil_lt_cons i a
  | cons i b ih =>
    obtain ⟨rest, rfl⟩ := h
    exact cons_lt_cons_self.mpr (ih (prefix_append b rest) fun heq => hne (congrArg _ heq))

section

variable {p : Place} {addresses : List (List Nat)} (hmem : ∀ a, a ∈ addresses ↔ p.Reached (unhalted policy) a)
include hmem

/-- An address is reached if the policy ends the walk at none before it. -/
theorem reached_of_none_before {a : List Nat} (ha : a ∈ addresses)
    (hnone : ∀ b ∈ addresses, b < a → ∀ r, p.at? b = some r → policy r ≠ .halt) : p.Reached policy a := by
  have hreached := (hmem a).mp ha
  refine hreached.imp fun b hb hne r hr hdescend => ?_
  have hr := hnone b ((hmem b).mpr (hreached.of_isPrefix hb)) (lt_of_isPrefix hb hne) r hr
  rwa [unhalted_of_ne hr] at hdescend

/-- Where the policy ends no walk, the walk enters all that is reached. -/
theorem entered_iff_of_none (hnone : ∀ b ∈ addresses, ∀ r, p.at? b = some r → policy r ≠ .halt)
    (a : List Nat) : a ∈ addresses ↔ p.Entered policy a := by
  constructor
  · intro ha
    refine ⟨reached_of_none_before hmem ha fun b hb _ => hnone b hb, ?_⟩
    intro b q hb hq hhalt
    exact absurd hhalt (hnone b ((hmem b).mpr hb.unhalted) q hq)
  · intro ha
    exact (hmem a).mpr ha.1.unhalted

end

/-- Where the policy ends the walk, the walk enters what is reached up to there. -/
theorem entered_iff_of_halt {before after : List (List Nat)} {s : List Nat} {q : Place}
    (hmem : ∀ a, a ∈ before ++ s :: after ↔ p.Reached (unhalted policy) a)
    (hsorted : (before ++ s :: after).Pairwise (· < ·))
    (hnone : ∀ b ∈ before, ∀ r, p.at? b = some r → policy r ≠ .halt) (hq : p.at? s = some q)
    (hhalt : policy q = .halt) (a : List Nat) : a ∈ before ++ [s] ↔ p.Entered policy a := by
  obtain ⟨-, hsecond, hcross⟩ := pairwise_append.mp hsorted
  have hsafter := (pairwise_cons.mp hsecond).1
  -- what comes before an address up to `s` comes before `s`
  have hbefore : ∀ b ∈ before ++ s :: after, b < s → b ∈ before := by
    intro b hb hlt
    rcases mem_append.mp hb with hb | hb
    · exact hb
    rcases mem_cons.mp hb with rfl | hb
    · exact absurd hlt (List.lt_irrefl b)
    · exact absurd (List.lt_trans hlt (hsafter b hb)) (List.lt_irrefl b)
  have hle : ∀ b ∈ before ++ [s], b = s ∨ b < s := by
    intro b hb
    rcases mem_append.mp hb with hb | hb
    · exact .inr (hcross b hb s mem_cons_self)
    · exact .inl (mem_singleton.mp hb)
  have hreached : ∀ b ∈ before ++ [s], p.Reached policy b := by
    intro b hb
    refine reached_of_none_before hmem ?_ fun c hc hlt r hr => hnone c (hbefore c hc ?_) r hr
    · rw [append_cons]
      exact mem_append_left _ hb
    · rcases hle b hb with rfl | hb
      · exact hlt
      · exact List.lt_trans hlt hb
  have hs : s ∈ before ++ [s] := mem_append_right _ mem_cons_self
  constructor
  · intro ha
    refine ⟨hreached a ha, fun b r hb hr hends hlt => ?_⟩
    -- the first place at which the walk is ended is `s`
    have hlts : b < s := by
      rcases hle a ha with rfl | ha
      · exact hlt
      · exact List.lt_trans hlt ha
    exact hnone b (hbefore b ((hmem b).mpr hb.unhalted) hlts) r hr hends
  · rintro ⟨ha, hfirst⟩
    have hnot := hfirst s q (hreached s hs) hq hhalt
    rcases mem_append.mp ((hmem a).mpr ha.unhalted) with ha | ha
    · exact mem_append_left _ ha
    rcases mem_cons.mp ha with rfl | ha
    · exact hs
    · exact absurd (hsafter a ha) hnot

/-- Addresses of the nodes that events enter lead to nodes that they enter. -/
theorem enter_mem_of_map {addresses : List (List Nat)}
    (hmap : addresses.map p.at? = (events.filterMap Event.entered?).map some) (hb : b ∈ addresses) {r : Place}
    (hr : p.at? b = some r) : .enter r ∈ events := by
  have hmem : some r ∈ addresses.map p.at? := mem_map.mpr ⟨b, hb, hr⟩
  rw [hmap] at hmem
  obtain ⟨q, hq, heq⟩ := mem_map.mp hmem
  cases heq
  exact mem_entered_iff.mp hq

/-- **The nodes that a walk enters**, by their addresses. -/
theorem exists_addresses (policy : Place → Verdict) (p : Place) : ∃ addresses : List (List Nat),
    addresses.Pairwise (· < ·) ∧ addresses.map p.at? = (p.visited policy).map some ∧
      ∀ a, a ∈ addresses ↔ p.Entered policy a := by
  have hsorted := @pairwise_addressesOfTree (unhalted policy) p.above p.tree
  have hmem := @mem_addressesOfTree (unhalted policy) p.above p.tree
  have hmap := map_at?_addressesOfTree (@unhalted_ne_halt policy) p.above p.tree
  have hcut := @cutShort_walkTree policy p.above p.tree
  generalize addressesOfTree (unhalted policy) p.above p.tree = addresses at hsorted hmem hmap
  rw [visited, walk] at hmap ⊢
  simp only at hmap
  generalize walkTree (unhalted policy) p.above p.tree = full at hmap hcut
  generalize walkTree policy p.above p.tree = run at hcut ⊢
  cases hcut with
  | finished hnone =>
    refine ⟨addresses, hsorted, hmap, entered_iff_of_none hmem fun b hb r hr => ?_⟩
    exact hnone r (enter_mem_of_map hmap hb hr)
  | halted before q after hfull hbefore hq =>
    rw [hfull, filterMap_append, map_append] at hmap
    obtain ⟨front, back, rfl, hfront, hback⟩ := map_eq_append_iff.mp hmap
    obtain ⟨s, rest, rfl, hs, -⟩ := map_eq_cons_iff.mp hback
    refine ⟨front ++ [s], ?_, ?_, entered_iff_of_halt hmem hsorted (fun b hb r hr => ?_) hs hq⟩
    · exact hsorted.sublist ((List.Sublist.refl front).append (singleton_sublist.mpr mem_cons_self))
    · rw [entered_append_enter, map_append, map_append, hfront]
      exact congrArg _ (congrArg (fun x => [x]) hs)
    · exact hbefore r (enter_mem_of_map hfront hb hr)

/-- **Stopping and skipping only prune the walk.** Take any policy and any place to start from. The nodes
that the walk enters, parents first and in source order, are those above which the policy says to go on
everywhere, from the start down, each once; if the policy ends the walk at one of them, then only up to
the first such node. If it ends the walk at none of them, every node that is entered is also left, once,
after all that was entered inside it. Otherwise the events are those of the policy that goes on where
this one ends the walk, up to the entering of the first node where it does so. -/
theorem walk_prunes (policy : Place → Verdict) (p : Place) :
    (∃ addresses : List (List Nat), addresses.Pairwise (· < ·) ∧
      addresses.map p.at? = (p.visited policy).map some ∧
      ∀ a, a ∈ addresses ↔ p.Reached policy a ∧
        ∀ b q, p.Reached policy b → p.at? b = some q → policy q = .halt → ¬ b < a) ∧
    (((p.walk policy).2 = true ∧ Nested p.above (p.walk policy).1 ∧
      ∀ q ∈ p.visited policy, policy q ≠ .halt) ∨
      ((p.walk policy).2 = false ∧ ∃ before q after, (p.walk (unhalted policy)).1 = before ++
        .enter q :: after ∧
        (p.walk policy).1 = before ++ [.enter q] ∧ policy q = .halt ∧
          ∀ r, .enter r ∈ before → policy r ≠ .halt)) ∧
    ((p.walk policy).2 = false ↔ ∃ q ∈ p.visited policy, policy q = .halt) := by
  refine ⟨exists_addresses policy p, ?_⟩
  have hnested := nested_walkTree (@unhalted_ne_halt policy) p.above p.tree
  have hcut := @cutShort_walkTree policy p.above p.tree
  rw [visited, walk, walk]
  generalize walkTree (unhalted policy) p.above p.tree = full at hnested hcut
  generalize walkTree policy p.above p.tree = run at hcut
  cases hcut with
  | finished hnone =>
    have hvisited : ∀ q ∈ full.1.filterMap Event.entered?, policy q ≠ .halt :=
      fun q hq => hnone q (mem_entered_iff.mp hq)
    refine ⟨.inl ⟨rfl, hnested, hvisited⟩, fun h => Bool.noConfusion h, ?_⟩
    rintro ⟨q, hq, hhalt⟩
    exact absurd hhalt (hvisited q hq)
  | halted before q after hfull hbefore hq =>
    refine ⟨.inr ⟨rfl, before, q, after, hfull, rfl, hq, hbefore⟩, fun _ => ⟨q, ?_, hq⟩, fun _ => rfl⟩
    rw [entered_append_enter]
    exact mem_append_right _ mem_cons_self

end Place

end SwiftOutline
