import SwiftOutline.Proofs.Declaration.Enclosure
import SwiftOutline.Proofs.Descriptor.Context
import SwiftOutline.Proofs.Grammar.SchemaCounts

/-!
# `Optionality` — looking up from the core and peeling down to it

Whether an annotation is optional is found by climbing from its core through attributed types and
grouping parentheses to an optional. The core in turn is found by peeling the annotation from the
outside. Both go through the same nodes: a step of the climb undoes a step of peeling, and at a type that
is described the climb stops where peeling began.
-/

namespace SwiftOutline

open SwiftOutline.Tree NodeKind Place

namespace Place

variable {p q r : Place}

/-- The types that peeling comes through, from the annotation itself down to its core. -/
def peelPath (p : Place) : List Place :=
  match _h : p.unwrapped? with
  | none => [p]
  | some q => p :: q.peelPath
termination_by sizeOf p.tree
decreasing_by exact (holdsBelow_of_unwrapped? _h).below.sizeOf_lt

theorem peelPath_of_none (h : p.unwrapped? = none) : p.peelPath = [p] := by
  rw [peelPath]
  split
  · rfl
  · next heq =>
    rw [h] at heq
    cases heq

theorem peelPath_of_some (h : p.unwrapped? = some q) : p.peelPath = p :: q.peelPath := by
  rw [peelPath]
  split
  · next heq =>
    rw [h] at heq
    cases heq
  · next heq =>
    rw [h] at heq
    cases heq
    rfl

theorem head?_peelPath (p : Place) : p.peelPath.head? = some p := by
  cases h : p.unwrapped? with
  | none => rw [peelPath_of_none h, List.head?_cons]
  | some q => rw [peelPath_of_some h, List.head?_cons]

/-- The path ends at the core. -/
theorem getLast?_peelPath (p : Place) : p.peelPath.getLast? = some p.peel.core := by
  fun_induction peel p with
  | case1 p h => rw [peelPath_of_none h, List.getLast?_singleton]
  | case2 p q h _ ih => rw [peelPath_of_some h, List.getLast?_cons, ih, Option.getD_some]

/-- A type on the path stands between the annotation and the core. It is the core or larger. -/
theorem between_of_mem_peelPath (h : r ∈ p.peelPath) :
    p.tree.Contains r.tree ∧ r.tree.Contains p.peel.core.tree ∧
      (r = p.peel.core ∨ sizeOf p.peel.core.tree < sizeOf r.tree) := by
  fun_induction peel p with
  | case1 p hnone =>
    rw [peelPath_of_none hnone] at h
    cases List.mem_singleton.mp h
    exact ⟨.self, .self, .inl rfl⟩
  | case2 p q hq inner ih =>
    rw [peelPath_of_some hq] at h
    rcases List.mem_cons.mp h with rfl | h
    · have hcore := contains_core_peel q
      refine ⟨.self, (holdsBelow_of_unwrapped? hq).contains.trans hcore, .inr ?_⟩
      exact Nat.lt_of_le_of_lt (sizeOf_core_peel q) (holdsBelow_of_unwrapped? hq).below.sizeOf_lt
    · obtain ⟨hin, hcore⟩ := ih h
      exact ⟨(holdsBelow_of_unwrapped? hq).contains.trans hin, hcore⟩

/-! ## One step -/

/-- From inside parentheses that only group, the search goes on above them. -/
theorem hasOptionalAbove_transparent? (hp : p.tree.Accepted) (hkind : p.kind? = some .tupleType)
    (hq : p.transparent? = some q) : hasOptionalAbove q.above = hasOptionalAbove p.above := by
  have hmem := mem_elementTypes_of_transparent? hq
  unfold elementTypes at hmem
  split at hmem
  case h_2 => cases hmem
  next list hlist =>
  obtain ⟨element, helement, htype⟩ := List.mem_filterMap.mp hmem
  have hlists := hp.contains (contains_of_child? hlist)
  obtain ⟨l, hl, rfl⟩ := Option.map_eq_some_iff.mp hlist
  obtain ⟨e, he, rfl⟩ := List.mem_map.mp helement
  obtain ⟨c, -, rfl⟩ := Option.map_eq_some_iff.mp htype
  have hentry : e.kind? = some .tupleTypeElement := hlists.isKind_of_mem (Tree.kind?_of_child? hl) rfl he
  show hasOptionalAbove (e :: l :: p.tree :: p.above) = _
  have htuple : p.tree.isKind .tupleType = true := beq_iff_eq.mpr hkind
  rw [hasOptionalAbove_element hentry, htuple, hq, Option.isSome_some, Bool.true_and, Bool.true_and]

/-- **One step of peeling, seen from below**: the search finds what comes off, or goes on above it. -/
theorem hasOptionalAbove_unwrapped? (hp : p.tree.Accepted) (hq : p.unwrapped? = some q) :
    hasOptionalAbove q.above = (p.kind?.any isOptional || hasOptionalAbove p.above) := by
  have hoptional {k : NodeKind} (hkind : p.kind? = some k) (hk : k.isOptional = true) (hq :
      p.childType? = some q) :
      hasOptionalAbove q.above = (p.kind?.any isOptional || hasOptionalAbove p.above) := by
    obtain ⟨c, -, rfl⟩ := Option.map_eq_some_iff.mp hq
    rw [hkind, Option.any_some, hk, Bool.true_or]
    exact hasOptionalAbove_eq_true hkind hk
  unfold unwrapped? at hq
  split at hq
  · next hkind =>
    obtain ⟨c, -, rfl⟩ := Option.map_eq_some_iff.mp hq
    rw [hkind]
    exact hasOptionalAbove_attributed hkind
  · next hkind => exact hoptional hkind rfl hq
  · next hkind => exact hoptional hkind rfl hq
  · next hkind =>
    rw [hasOptionalAbove_transparent? hp hkind hq, hkind]
    rfl
  · cases hq

/-- An optional has a type below it, so that peeling does not stop there. -/
theorem not_isOptional_of_unwrapped? (hp : p.tree.Accepted) (h : p.unwrapped? = none) :
    p.kind?.any isOptional = false := by
  cases hkind : p.kind? with
  | none => rfl
  | some k =>
    rw [Option.any_some, Bool.eq_false_iff]
    intro hk
    have hcount : (childLayout k).count (.ofKinds NodeKind.isType) = some 1 := by
      revert hk
      cases k <;> decide
    obtain ⟨u, hu, -⟩ := hp.exists_childType hkind hcount
    have hchild : p.unwrapped? = p.childType? := by
      rw [unwrapped?, hkind]
      cases k <;> first | rfl | cases hk
    rw [hchild, childType?, hu] at h
    cases h

/-! ## All steps -/

/-- **All steps of peeling, seen from the core**: the search finds an optional on the path, or what is
found above. -/
theorem hasOptionalAbove_core (hp : p.tree.Accepted) : hasOptionalAbove p.peel.core.above =
    (p.peelPath.any (fun r => r.kind?.any isOptional) || hasOptionalAbove p.above) := by
  fun_induction peel p with
  | case1 p h =>
    rw [peelPath_of_none h, List.any_cons, not_isOptional_of_unwrapped? hp h, List.any_nil, Bool.or_self,
      Bool.false_or]
  | case2 p q h _ ih =>
    rw [ih (hp.contains (holdsBelow_of_unwrapped? h).contains), hasOptionalAbove_unwrapped? hp h,
      peelPath_of_some h, List.any_cons, ← Bool.or_assoc, Bool.or_comm (List.any _ _)]

theorem isOptional_decompose (p : Place) : p.decompose.isOptional = hasOptionalAbove p.peel.core.above := by
  rw [Descriptor.isOptional, decompose_eq_describe]
  unfold describe
  split
  · rfl
  split <;> rfl

/-- The optionals on the path are those that count, where none above does. -/
theorem isOptional_eq_any (hp : p.tree.Accepted) (habove : hasOptionalAbove p.above = false) :
    p.decompose.isOptional = p.peelPath.any fun r => r.kind?.any isOptional := by
  rw [isOptional_decompose, hasOptionalAbove_core hp, habove, Bool.or_false]

/-- Where no optional above a type counts, the type alone is as optional. -/
theorem isOptional_root (habove : hasOptionalAbove p.above = false) :
    (root p.tree).decompose.isOptional = p.decompose.isOptional := by
  have hsame : SameOptional id p.above (root p.tree) := habove
  have hcore := sameOptional_core (Token.faithful_id _) hsame
  have hmoved : (root p.tree).moved id p.above = p := moved_id_root p.above p.tree
  have hpeel := congrArg Peeled.core (peel_moved p.above (p := root p.tree) (Token.faithful_id _).legible)
  rw [hmoved] at hpeel
  rw [isOptional_decompose, isOptional_decompose, hpeel]
  exact hcore.symm

end Place

/-- The type is optional just if one of the wrappings that are peeled off is. -/
structure Place.OptionalByPeeling (q : Place) : Prop where
  iff : q.decompose.isOptional = true ↔ ∃ r ∈ q.peelPath, r.kind?.any isOptional = true
  first : q.peelPath.head? = some q
  last : q.peelPath.getLast? = some q.peel.core
  around : ∀ r ∈ q.peelPath, r.kind?.any isOptional = true →
    q.tree.Contains r.tree ∧ r.tree.Contains q.peel.core.tree ∧ ¬ q.peel.core.tree.Contains r.tree
  alone : (root q.tree).decompose.isOptional = q.decompose.isOptional

/-- **A described type is optional if peeling takes an optional off it.** Peeling goes from the type
through wrappings to its core, and the type is optional just if one of these is an optional. It stands
around the core, not in it, and what stands around the type has no say: the type alone is as optional as
it is in its place. -/
theorem isOptional_iff_peeled {source : String} {tree : Tree}
    (h : parseSource source = .ok tree ∨ parseType source = .ok tree) {q : Place}
    (hq : Place.Described tree q) : q.OptionalByPeeling := by
  have htree : tree.IsPart source := h.elim isPart_of_parseSource isPart_of_parseType
  have hstandalone := Place.standalone_of_described htree hq
  have haccepted : q.tree.Accepted := (accepted_of_parse h).contains (Place.contains_of_described hq)
  have hcore : q.peel.core.kind?.any NodeKind.isOptional = false :=
    Place.not_isOptional_of_unwrapped? (haccepted.contains (Place.contains_core_peel q))
      (Place.unwrapped?_core q)
  refine ⟨?_, Place.head?_peelPath q, Place.getLast?_peelPath q, ?_,
    Place.isOptional_root hstandalone.noOptional⟩
  · rw [Place.isOptional_eq_any haccepted hstandalone.noOptional, List.any_eq_true]
  · intro r hr hoptional
    obtain ⟨hin, hcontains, rfl | hsize⟩ := Place.between_of_mem_peelPath hr
    · rw [hcore] at hoptional
      cases hoptional
    · exact ⟨hin, hcontains, fun hback => Nat.not_le_of_lt hsize hback.sizeOf_le⟩

/-- Peeling takes an attribute, two pairs of parentheses and an optional off a closure. The argument of a
`Result` is not optional, neither by the optional around the `Result` nor by one in the argument. -/
theorem isOptional_iff_peeled_closure : ∃ tree,
    parseSource "func f(a: @B (((C?) -> D?)!), e: Result<[(C) -> D?], G>?)" = .ok tree ∧
    ∃ q r, Place.Described tree q ∧ Place.Described tree r ∧ q.OptionalByPeeling ∧ r.OptionalByPeeling ∧
      q.peelPath.map Place.text =
        ["@B (((C?) -> D?)!)", "(((C?) -> D?)!)", "((C?) -> D?)!", "((C?) -> D?)", "(C?) -> D?"] ∧
      q.decompose.isOptional = true ∧ r.text = "[(C) -> D?]" ∧ r.decompose.isOptional = false := by
  obtain ⟨tree, hparse, p, hp, ⟨q, hq, hpath, hclosure⟩, s, hs, r, hr, harray⟩ := exists_ok_of_test
    (x := parseSource "func f(a: @B (((C?) -> D?)!), e: Result<[(C) -> D?], G>?)") (P := fun tree =>
      ∃ p ∈ (Place.root tree).visited Place.collectPolicy,
        (∃ q ∈ p.annotations, q.peelPath.map Place.text =
            ["@B (((C?) -> D?)!)", "(((C?) -> D?)!)", "((C?) -> D?)!", "((C?) -> D?)", "(C?) -> D?"] ∧
          q.decompose.isOptional = true) ∧
        ∃ q ∈ p.annotations, ∃ r ∈ q.peel.core.sides, r.text = "[(C) -> D?]" ∧ r.decompose.isOptional = false)
    (by decide +kernel)
  have hdescribed : Place.Described tree q := .annotated hp hq
  have hpart : Place.Described tree r := .part (.annotated hp hs) hr
  exact ⟨tree, hparse, q, r, hdescribed, hpart, isOptional_iff_peeled (.inl hparse) hdescribed,
    isOptional_iff_peeled (.inl hparse) hpart, hpath, hclosure, harray⟩

end SwiftOutline
